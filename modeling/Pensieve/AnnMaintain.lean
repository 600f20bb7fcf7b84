/-
**Maintenance of the trees of centroids.**

A run of `ann_maintain` lists the sidecars of a column and an embedding model, looks at the row of
their tree, and puts a new tree before it writes the row; the path of the tree is made of the column
and the model, and the row counts generations.
-/

import Pensieve.CatalogTypes
import Pensieve.CentroidTree
import Pensieve.Rows
import Pensieve.Runs

namespace AnnTree

open List
open Catalog (TenantId TableId)

abbrev Text := List Char

/-! ### Rows and paths -/

structure TreeKey where
  tableId : TableId
  column : Text
  model : Option Text
  deriving DecidableEq

/-- `(table_id, column_name, COALESCE(embedding_model_id, ''))` -/
def TreeKey.same (k k' : TreeKey) : Bool :=
  decide (k.tableId = k'.tableId ∧ k.column = k'.column ∧ k.model.getD [] = k'.model.getD [])

/-- A row of `ann_tree`; a table is of one tenant. -/
structure AnnTreeRow (D : Type) where
  key : TreeKey
  generation : ℤ
  extentFingerprint : D
  objectPath : Text
  deriving DecidableEq

/-- `AnnMaintainExecutor::tree_path`, for the texts of ids and the tenants of tables. -/
def treePath (uuidText : Catalog.Uuid → Text) (tenantOf : TableId → TenantId) (key : TreeKey) : Text :=
  let model := (key.model.getD "none".toList).map fun c => if c = '/' then '_' else c
  uuidText (tenantOf key.tableId) ++ "/ann_tree/".toList ++ uuidText key.tableId ++ "/".toList ++ key.column ++
    "__".toList ++ model ++ ".kygt".toList

section Step

variable {D F : Type} [DecidableEq D] [DecidableEq F]

def upsertAnnTree (rows : List (AnnTreeRow D)) (row : AnnTreeRow D) : List (AnnTreeRow D) :=
  if rows.any fun q => row.key.same q.key then
    Rows.updateWhere (fun q => row.key.same q.key) (fun q => { row with key := q.key }) rows
  else rows ++ [row]

def getAnnTree (rows : List (AnnTreeRow D)) (key : TreeKey) : Option (AnnTreeRow D) :=
  rows.find? fun row => key.same row.key

/-- `delete_ann_tree`, for all models of the column. -/
def deleteAnnTree (rows : List (AnnTreeRow D)) (key : TreeKey) : List (AnnTreeRow D) :=
  rows.filter fun row => ¬ (row.key.tableId = key.tableId ∧ row.key.column = key.column)

/-! ### Maintainers and queries -/

/-- Where a run of `ann_maintain` stands: it has listed the extents with a sidecar, it has looked at the generation of the
row, it has put a tree for a row. -/
inductive Maintainer (D : Type) where
  | listed (key : TreeKey) (ids : List Uuid)
  | building (key : TreeKey) (ids : List Uuid) (existing : Option ℤ)
  | uploaded (row : AnnTreeRow D)
  deriving DecidableEq

/-- Where a query stands: it has seen the sidecars, its row is fresh, the cache has no tree, a tree was fetched. -/
inductive Stage (D F : Type) where
  | seen
  | matched (row : AnnTreeRow D)
  | missed (row : AnnTreeRow D)
  | fetched (row : AnnTreeRow D) (tree : GlobalTree F)
  deriving DecidableEq

def Stage.row? : Stage D F → Option (AnnTreeRow D)
  | .seen => none
  | .matched row => some row
  | .missed row => some row
  | .fetched row _ => some row

/-- A call of `select`. -/
structure Query (D F : Type) where
  key : TreeKey
  ids : List Uuid
  vector : List F
  topP : ℕ
  stage : Stage D F
  deriving DecidableEq

/-- A selection that was returned, and the tree that it was made with. -/
structure Answer (F : Type) where
  key : TreeKey
  ids : List Uuid
  vector : List F
  topP : ℕ
  tree : GlobalTree F
  selection : List (Uuid × List ℕ)
  deriving DecidableEq

/-- The sidecars of the live extents, the rows, the store, the cache of a process, and who is at work. -/
structure World (D F : Type) where
  sidecars : List (TreeKey × Uuid)
  rows : List (AnnTreeRow D)
  store : List (Text × GlobalTree F)
  cache : List ((TreeKey × ℤ) × GlobalTree F)
  maintainers : List (ℕ × Maintainer D)
  queries : List (ℕ × Query D F)
  answers : List (Answer F)
  deriving DecidableEq

def World.init : World D F := ⟨[], [], [], [], [], [], []⟩

def World.current (w : World D F) (key : TreeKey) : List Uuid := (w.sidecars.filter fun p => p.1 = key).map Prod.snd

def World.putMaintainer (w : World D F) (m : ℕ) (x : Maintainer D) : World D F :=
  { w with maintainers := (m, x) :: w.maintainers.filter (·.1 ≠ m) }

def World.dropMaintainer (w : World D F) (m : ℕ) : World D F :=
  { w with maintainers := w.maintainers.filter (·.1 ≠ m) }

def World.putQuery (w : World D F) (i : ℕ) (x : Query D F) : World D F :=
  { w with queries := (i, x) :: w.queries.filter (·.1 ≠ i) }

def World.dropQuery (w : World D F) (i : ℕ) : World D F := { w with queries := w.queries.filter (·.1 ≠ i) }

inductive Action (F : Type) where
  | addSidecar (key : TreeKey) (id : Uuid)
  | removeExtent (id : Uuid)
  | list (m : ℕ) (key : TreeKey)
  | dropTree (m : ℕ)
  | getExisting (m : ℕ)
  | put (m : ℕ)
  | upsert (m : ℕ)
  | fail (m : ℕ)
  | see (i : ℕ) (key : TreeKey) (vector : List F) (topP : ℕ)
  | readRow (i : ℕ)
  | checkCache (i : ℕ)
  | fetch (i : ℕ)
  | insert (i : ℕ)
  | giveUp (i : ℕ)

/-- What the model of the maintenance is over: the arithmetic and the training of clusters, the hash, the texts of ids,
the tenants of tables, and the sidecar files, which do not change while they are there. -/
structure Env (D F : Type) where
  ops : Arith F
  trainer : Trainer F
  contentHash : List (Fin 256) → D
  uuidText : Catalog.Uuid → Text
  tenantOf : TableId → TenantId
  content : TreeKey → Uuid → SidecarFile F

variable (env : Env D F)

def Env.path (key : TreeKey) : Text := treePath env.uuidText env.tenantOf key

def Env.tree (key : TreeKey) (ids : List Uuid) : Option (GlobalTree F) :=
  buildTree env.ops env.trainer key.model (env.content key) ids

def Env.row (key : TreeKey) (ids : List Uuid) (existing : Option ℤ) : AnnTreeRow D :=
  ⟨key, (existing.map (· + 1)).getD 1, extentFingerprint env.contentHash ids, env.path key⟩

/-- The end of `select`, with a tree. -/
def World.finish (w : World D F) (i : ℕ) (x : Query D F) (tree : GlobalTree F) : World D F :=
  let refs := selectPartitions env.ops tree x.vector x.topP
  if tree.dim ≠ x.vector.length ∨ refs = [] then w.dropQuery i
  else { w with answers := ⟨x.key, x.ids, x.vector, x.topP, tree, groupRefs refs⟩ :: w.answers }.dropQuery i

/-- **One step**. -/
def step (w : World D F) : Action F → Option (World D F)
  | .addSidecar key id => if (key, id) ∈ w.sidecars then none else some { w with sidecars := (key, id) :: w.sidecars }
  | .removeExtent id => some { w with sidecars := w.sidecars.filter (·.2 ≠ id) }
  | .list m key =>
    if (w.maintainers.lookup m).isSome then none else some (w.putMaintainer m (.listed key (w.current key)))
  | .dropTree m =>
    match w.maintainers.lookup m with
    | some (.listed key []) => some ({ w with rows := deleteAnnTree w.rows key }.dropMaintainer m)
    | _ => none
  | .getExisting m =>
    match w.maintainers.lookup m with
    | some (.listed key (id :: ids)) =>
      let existing := getAnnTree w.rows key
      if existing.map AnnTreeRow.extentFingerprint = some (extentFingerprint env.contentHash (id :: ids)) then
        some (w.dropMaintainer m)
      else some (w.putMaintainer m (.building key (id :: ids) (existing.map AnnTreeRow.generation)))
    | _ => none
  | .put m =>
    match w.maintainers.lookup m with
    | some (.building key ids existing) =>
      match env.tree key ids with
      | some tree =>
        some ({ w with store := (env.path key, tree) :: w.store }.putMaintainer m
          (.uploaded (env.row key ids existing)))
      | none => some (w.dropMaintainer m)
    | _ => none
  | .upsert m =>
    match w.maintainers.lookup m with
    | some (.uploaded row) => some ({ w with rows := upsertAnnTree w.rows row }.dropMaintainer m)
    | _ => none
  | .fail m => some (w.dropMaintainer m)
  | .see i key vector topP =>
    if (w.queries.lookup i).isSome then none else some (w.putQuery i ⟨key, w.current key, vector, topP, .seen⟩)
  | .readRow i =>
    match w.queries.lookup i with
    | some x =>
      if x.stage = .seen then
        match getAnnTree w.rows x.key with
        | some row =>
          if extentFingerprint env.contentHash x.ids = row.extentFingerprint then
            some (w.putQuery i { x with stage := .matched row })
          else some (w.dropQuery i)
        | none => some (w.dropQuery i)
      else none
    | none => none
  | .checkCache i =>
    match w.queries.lookup i with
    | some x =>
      match x.stage with
      | .matched row =>
        match w.cache.lookup (x.key, row.generation) with
        | some tree => some (w.finish env i x tree)
        | none => some (w.putQuery i { x with stage := .missed row })
      | _ => none
    | none => none
  | .fetch i =>
    match w.queries.lookup i with
    | some x =>
      match x.stage with
      | .missed row =>
        match w.store.lookup row.objectPath with
        | some tree => some (w.putQuery i { x with stage := .fetched row tree })
        | none => some (w.dropQuery i)
      | _ => none
    | none => none
  | .insert i =>
    match w.queries.lookup i with
    | some x =>
      match x.stage with
      | .fetched row tree =>
        -- older generations of the same key are evicted
        some ({ w with
          cache := ((x.key, row.generation), tree) :: w.cache.filter (·.1.1 ≠ x.key) }.finish env i x tree)
      | _ => none
    | none => none
  | .giveUp i => some (w.dropQuery i)

/-! ### What answers are to keep to -/

/-- **The tree in use is fresh**: a selection was made with the tree of exactly the sidecars that the query has seen; so
with a budget for all centroids every partition of every sidecar is selected. -/
structure Fresh (w : World D F) : Prop where
  tree : ∀ a ∈ w.answers, env.tree a.key a.ids = some a.tree
  all : ∀ a ∈ w.answers, a.tree.centroids.length ≤ a.topP → ∀ id ∈ a.ids,
    ∀ p < (env.content a.key id).centroids.length, ∃ e ∈ a.selection, e.1 = id ∧ p ∈ e.2

def World.Ahead (w : World D F) (path : Text) : Prop :=
  ∃ m row, w.maintainers.lookup m = some (.uploaded row) ∧ row.objectPath = path

def World.Held (w : World D F) (row : AnnTreeRow D) : Prop :=
  ∃ i x, w.queries.lookup i = some x ∧ x.stage.row? = some row

/-- **The condition on the steps**: a tree is put while no other maintainer is ahead at its path, no query holds a row
with the path, and no row of another column or model has it; a row is written under a generation of which the cache has no
tree; no maintainer fails between the two; and a query does not read a row while a maintainer is ahead at its path.  No
model has the empty name. -/
def Heeds (w : World D F) : Action F → Prop
  | .list _ key => key.model ≠ some []
  | .see _ key _ _ => key.model ≠ some []
  | .put m => ∀ key ids existing, w.maintainers.lookup m = some (.building key ids existing) →
      ¬ w.Ahead (env.path key) ∧ (∀ row, w.Held row → row.objectPath ≠ env.path key) ∧
      ∀ row ∈ w.rows, row.objectPath = env.path key → row.key = key
  | .upsert m => ∀ row, w.maintainers.lookup m = some (.uploaded row) →
      ∀ tree, ((row.key, row.generation), tree) ∉ w.cache
  | .fail m => ∀ row, w.maintainers.lookup m ≠ some (.uploaded row)
  | .readRow i => ∀ x row, w.queries.lookup i = some x → getAnnTree w.rows x.key = some row → ¬ w.Ahead row.objectPath
  | _ => True

end Step

/-! ### The invariant -/

section Inv

variable {D F : Type} {env : Env D F} {w w' : World D F} {m i : ℕ}

def World.Active (w : World D F) (row : AnnTreeRow D) : Prop := row ∈ w.rows ∨ w.Held row

def Good (env : Env D F) (row : AnnTreeRow D) (tree : GlobalTree F) : Prop :=
  ∀ ids, row.extentFingerprint = extentFingerprint env.contentHash ids → env.tree row.key ids = some tree

def Stored (env : Env D F) (w : World D F) (row : AnnTreeRow D) : Prop :=
  ∃ tree, w.store.lookup row.objectPath = some tree ∧ Good env row tree

structure Proper (env : Env D F) (row : AnnTreeRow D) : Prop where
  path : row.objectPath = env.path row.key
  named : row.key.model ≠ some []

def Maintainer.key : Maintainer D → TreeKey
  | .listed key _ => key
  | .building key _ _ => key
  | .uploaded row => row.key

structure Inv (env : Env D F) (w : World D F) : Prop where
  proper : ∀ row, w.Active row → Proper env row
  unique : ∀ row row', w.Active row → w.Active row' → row.objectPath = row'.objectPath → row = row'
  stored : ∀ row, w.Active row → ¬ w.Ahead row.objectPath → Stored env w row
  cached : ∀ row, w.Active row → ∀ tree, ((row.key, row.generation), tree) ∈ w.cache → Good env row tree
  quiet : ∀ row, w.Held row → ¬ w.Ahead row.objectPath
  named : ∀ m x, w.maintainers.lookup m = some x → x.key.model ≠ some []
  uploaded : ∀ m row, w.maintainers.lookup m = some (.uploaded row) → Proper env row ∧ Stored env w row ∧
    ∀ q ∈ w.rows, q.objectPath = row.objectPath → q.key = row.key
  one : ∀ m m' row row', w.maintainers.lookup m = some (.uploaded row) → w.maintainers.lookup m' = some (.uploaded row') →
    row.objectPath = row'.objectPath → m = m'
  query : ∀ i x, w.queries.lookup i = some x → x.key.model ≠ some [] ∧ ∀ row, x.stage.row? = some row →
    row.key = x.key ∧ row.extentFingerprint = extentFingerprint env.contentHash x.ids
  fetched : ∀ i x row tree, w.queries.lookup i = some x → x.stage = .fetched row tree → Good env row tree
  fresh : Fresh env w

theorem Inv.init : Inv env (World.init : World D F) := by
  constructor
  case fresh => constructor <;> simp [World.init]
  all_goals simp [World.init, World.Active, World.Held]

/-! #### Tables of what is under way -/

variable {V : Type}

theorem lookup_drop (l : List (ℕ × V)) (i j : ℕ) :
    (l.filter (·.1 ≠ i)).lookup j = if j = i then none else l.lookup j := by
  induction l with
  | nil => simp
  | cons p l ih =>
    obtain ⟨k, v⟩ := p
    by_cases hki : k = i
    · rw [filter_cons_of_neg (by simpa using hki), ih, lookup_cons]
      subst hki
      by_cases hj : j = k
      · rw [if_pos hj, if_pos hj]
      · rw [if_neg hj, if_neg hj, beq_eq_false_iff_ne.2 hj]
    · rw [filter_cons_of_pos (by simpa using hki), lookup_cons, lookup_cons, ih]
      by_cases hj : j = k
      · rw [beq_iff_eq.2 hj, if_neg (hj.trans_ne hki), if_neg (hj.trans_ne hki)]
      · rw [beq_eq_false_iff_ne.2 hj]

theorem lookup_put (l : List (ℕ × V)) (i j : ℕ) (v : V) :
    ((i, v) :: l.filter (·.1 ≠ i)).lookup j = if j = i then some v else l.lookup j := by
  rw [lookup_cons, lookup_drop]
  by_cases hj : j = i
  · rw [if_pos hj, if_pos hj, beq_iff_eq.2 hj]
  · rw [if_neg hj, if_neg hj, beq_eq_false_iff_ne.2 hj]

theorem lookup_of_drop {l : List (ℕ × V)} {i j : ℕ} {v : V}
    (h : (l.filter (·.1 ≠ i)).lookup j = some v) : l.lookup j = some v ∧ j ≠ i := by
  rw [lookup_drop] at h
  split at h
  · cases h
  · rename_i hne
    exact ⟨h, hne⟩

theorem lookup_of_put {l : List (ℕ × V)} {i j : ℕ} {v v' : V}
    (h : ((i, v) :: l.filter (·.1 ≠ i)).lookup j = some v') : (j = i ∧ v' = v) ∨ (j ≠ i ∧ l.lookup j = some v') := by
  rw [lookup_put] at h
  split at h
  · rename_i heq
    exact .inl ⟨heq, (Option.some.inj h).symm⟩
  · rename_i hne
    exact .inr ⟨hne, h⟩

/-! #### Maintainers -/

theorem Inv.ofMaintainers (h : Inv env w) {l : List (ℕ × Maintainer D)}
    (hnamed : ∀ m x, l.lookup m = some x → x.key.model ≠ some [])
    (huploaded : ∀ m row, l.lookup m = some (.uploaded row) ↔ w.maintainers.lookup m = some (.uploaded row)) :
    Inv env { w with maintainers := l } := by
  have hahead : ∀ path, { w with maintainers := l }.Ahead path ↔ w.Ahead path := fun path =>
    exists_congr fun m => exists_congr fun row => and_congr_left' (huploaded m row)
  exact
    { h with
      stored := fun row hrow hnot => h.stored row hrow fun hold => hnot ((hahead _).2 hold)
      quiet := fun row hrow hnow => h.quiet row hrow ((hahead _).1 hnow)
      named := hnamed
      uploaded := fun m row hm => h.uploaded m row ((huploaded m row).1 hm)
      one := fun m₁ m₂ row row' h₁ h₂ => h.one m₁ m₂ row row' ((huploaded _ _).1 h₁) ((huploaded _ _).1 h₂)
      fresh := { h.fresh with } }

theorem Inv.putMaintainer (h : Inv env w) {x : Maintainer D} (hx : x.key.model ≠ some [])
    (hbefore : ∀ row, w.maintainers.lookup m ≠ some (.uploaded row)) (hafter : ∀ row, x ≠ .uploaded row) :
    Inv env (w.putMaintainer m x) := by
  refine h.ofMaintainers (fun m' x' hm' => ?_) fun m' row => ⟨fun hm' => ?_, fun hm' => ?_⟩
  · rcases lookup_of_put hm' with ⟨-, rfl⟩ | ⟨-, hm'⟩
    · exact hx
    · exact h.named m' x' hm'
  · rcases lookup_of_put hm' with ⟨-, heq⟩ | ⟨-, hm'⟩
    · exact absurd heq.symm (hafter row)
    · exact hm'
  · have hne : m' ≠ m := fun heq => hbefore row (heq ▸ hm')
    rw [lookup_put, if_neg hne, hm']

theorem Inv.dropMaintainer (h : Inv env w) (hbefore : ∀ row, w.maintainers.lookup m ≠ some (.uploaded row)) :
    Inv env (w.dropMaintainer m) := by
  refine h.ofMaintainers (fun m' x hm' => h.named m' x (lookup_of_drop hm').1)
    fun m' row => ⟨fun hm' => (lookup_of_drop hm').1, fun hm' => ?_⟩
  have hne : m' ≠ m := fun heq => hbefore row (heq ▸ hm')
  rw [lookup_drop, if_neg hne, hm']

theorem Inv.filterRows (h : Inv env w) (p : AnnTreeRow D → Bool) : Inv env { w with rows := w.rows.filter p } := by
  have hactive : ∀ row, ({ w with rows := w.rows.filter p } : World D F).Active row → w.Active row := by
    rintro row (hrow | hheld)
    · exact .inl (mem_of_mem_filter hrow)
    · exact .inr hheld
  exact
    { h with
      proper := fun row hrow => h.proper row (hactive row hrow)
      unique := fun row row' hrow hrow' => h.unique row row' (hactive row hrow) (hactive row' hrow')
      stored := fun row hrow => h.stored row (hactive row hrow)
      cached := fun row hrow => h.cached row (hactive row hrow)
      uploaded := fun m row hlookup => by
        obtain ⟨hproper, hstored, hkey⟩ := h.uploaded m row hlookup
        exact ⟨hproper, hstored, fun q hq => hkey q (mem_of_mem_filter hq)⟩
      fresh := { h.fresh with } }

/-! #### A tree is put, and its row is written -/

theorem lookup_cons_of_ne {l : List (Text × V)} {path q : Text} {v : V} (h : q ≠ path) :
    ((path, v) :: l).lookup q = l.lookup q := by
  rw [lookup_cons, beq_eq_false_iff_ne.2 h]

variable {tree : GlobalTree F}

/-- **A tree is put** at a path where nobody is ahead, that no query is at work with, and that is of no other key. -/
theorem Inv.put (h : Inv env w) (hinj : Function.Injective env.contentHash) {key : TreeKey} {ids : List Uuid}
    {existing : Option ℤ} (hlookup : w.maintainers.lookup m = some (.building key ids existing))
    (htree : env.tree key ids = some tree) (hahead : ¬ w.Ahead (env.path key))
    (hheld : ∀ row, w.Held row → row.objectPath ≠ env.path key)
    (hrows : ∀ row ∈ w.rows, row.objectPath = env.path key → row.key = key) :
    Inv env ({ w with store := (env.path key, tree) :: w.store }.putMaintainer m
      (.uploaded (env.row key ids existing))) := by
  have hnamed : key.model ≠ some [] := h.named m _ hlookup
  -- the others that are ahead stay so, and this one is ahead as well
  have hback : ∀ m' row, ({ w with store := (env.path key, tree) :: w.store }.putMaintainer m
      (.uploaded (env.row key ids existing))).maintainers.lookup m' = some (.uploaded row) →
      (m' = m ∧ row = env.row key ids existing) ∨ (m' ≠ m ∧ w.maintainers.lookup m' = some (.uploaded row)) := by
    intro m' row hm'
    rcases lookup_of_put hm' with ⟨heq, hrow⟩ | hold
    · exact .inl ⟨heq, Maintainer.uploaded.inj hrow⟩
    · exact .inr hold
  have hforth : ∀ path, path = env.path key ∨ w.Ahead path → ({ w with store := (env.path key, tree) :: w.store
      }.putMaintainer m (.uploaded (env.row key ids existing))).Ahead path := by
    rintro path (rfl | ⟨m', row, hm', hpath⟩)
    · exact ⟨m, _, by rw [World.putMaintainer, lookup_put, if_pos rfl], rfl⟩
    · have hne : m' ≠ m := by
        intro heq
        rw [heq, hlookup] at hm'
        cases hm'
      exact ⟨m', row, by rw [World.putMaintainer, lookup_put, if_neg hne, hm'], hpath⟩
  have hgood : Good env (env.row key ids existing) tree := by
    intro ids' hids
    have hperm : ids.Perm ids' := perm_of_fingerprint hinj hids
    exact (buildTree_perm env.ops hperm).symm.trans htree
  have hstored : ∀ row : AnnTreeRow D, row.objectPath ≠ env.path key → Stored env w row →
      ∃ tree', ((env.path key, tree) :: w.store).lookup row.objectPath = some tree' ∧ Good env row tree' := by
    rintro row hne ⟨tree', hlookup', hgood'⟩
    exact ⟨tree', (lookup_cons_of_ne hne).trans hlookup', hgood'⟩
  exact
    { h with
      stored := fun row hrow hno => by
        have hne : row.objectPath ≠ env.path key := fun heq => hno (hforth _ (.inl heq))
        exact hstored row hne (h.stored row hrow fun hold => hno (hforth _ (.inr hold)))
      quiet := fun row hrow hno => by
        obtain ⟨m', row', hm', hpath⟩ := hno
        rcases hback m' row' hm' with ⟨-, rfl⟩ | ⟨-, hold⟩
        · exact hheld row hrow hpath.symm
        · exact h.quiet row hrow ⟨m', row', hold, hpath⟩
      named := fun m' x hm' => by
        rcases lookup_of_put hm' with ⟨-, rfl⟩ | ⟨-, hold⟩
        · exact hnamed
        · exact h.named m' x hold
      uploaded := fun m' row hm' => by
        rcases hback m' row hm' with ⟨-, rfl⟩ | ⟨-, hold⟩
        · exact ⟨⟨rfl, hnamed⟩, ⟨tree, lookup_cons_self, hgood⟩, hrows⟩
        · obtain ⟨hproper, hold', hkey⟩ := h.uploaded m' row hold
          have hne : row.objectPath ≠ env.path key := fun heq => hahead ⟨m', row, hold, heq⟩
          exact ⟨hproper, hstored row hne hold', hkey⟩
      one := fun m₁ m₂ row row' h₁ h₂ hpath => by
        rcases hback m₁ row h₁ with ⟨rfl, rfl⟩ | ⟨-, hold₁⟩
        · rcases hback m₂ row' h₂ with ⟨rfl, -⟩ | ⟨-, hold₂⟩
          · rfl
          · exact absurd ⟨m₂, row', hold₂, hpath.symm⟩ hahead
        · rcases hback m₂ row' h₂ with ⟨rfl, rfl⟩ | ⟨-, hold₂⟩
          · exact absurd ⟨m₁, row, hold₁, hpath⟩ hahead
          · exact h.one m₁ m₂ row row' hold₁ hold₂ hpath
      fresh := { h.fresh with } }

theorem same_iff {k k' : TreeKey} (hk : k.model ≠ some []) (hk' : k'.model ≠ some []) : k.same k' = true ↔ k = k' := by
  obtain ⟨table, column, model⟩ := k
  obtain ⟨table', column', model'⟩ := k'
  rw [TreeKey.same, decide_eq_true_eq, TreeKey.mk.injEq]
  have hmodel : model.getD [] = model'.getD [] ↔ model = model' := by
    cases model with
    | none =>
      cases model' with
      | none => simp
      | some b =>
        have hb : b ≠ [] := fun heq => hk' (congrArg some heq)
        simpa using hb.symm
    | some a =>
      have ha : a ≠ [] := fun heq => hk (congrArg some heq)
      cases model' with
      | none => simpa using ha
      | some b => simp
  rw [hmodel]

theorem mem_upsertAnnTree {rows : List (AnnTreeRow D)} {row q : AnnTreeRow D} (hrow : row.key.model ≠ some [])
    (hrows : ∀ q ∈ rows, q.key.model ≠ some []) (hq : q ∈ upsertAnnTree rows row) :
    q = row ∨ (q ∈ rows ∧ q.key ≠ row.key) := by
  unfold upsertAnnTree at hq
  split at hq
  · obtain ⟨r, hr, ⟨hsame, rfl⟩ | ⟨hsame, rfl⟩⟩ := Rows.mem_updateWhere.1 hq
    · have heq := (same_iff hrow (hrows r hr)).1 hsame
      exact .inl (by rw [← heq])
    · refine .inr ⟨hr, fun heq => ?_⟩
      rw [(same_iff hrow (hrows q hr)).2 heq.symm] at hsame
      cases hsame
  · rename_i hnone
    rcases mem_append.1 hq with hq | hq
    · refine .inr ⟨hq, fun heq => hnone ?_⟩
      exact any_eq_true.2 ⟨q, hq, (same_iff hrow (hrows q hq)).2 heq.symm⟩
    · exact .inl (mem_singleton.1 hq)

variable {row : AnnTreeRow D}

theorem Inv.upsert (h : Inv env w) (hlookup : w.maintainers.lookup m = some (.uploaded row))
    (hnew : ∀ tree, ((row.key, row.generation), tree) ∉ w.cache) :
    Inv env ({ w with rows := upsertAnnTree w.rows row }.dropMaintainer m) := by
  obtain ⟨hproper, hstored, hkey⟩ := h.uploaded m row hlookup
  -- a row at work is the new one, or was before, and is at another path
  have hactive : ∀ q, ({ w with rows := upsertAnnTree w.rows row }.dropMaintainer m).Active q →
      q = row ∨ (w.Active q ∧ q.objectPath ≠ row.objectPath) := by
    rintro q (hq | hheld)
    · rcases mem_upsertAnnTree hproper.named (fun q hq => (h.proper q (.inl hq)).named) hq with rfl | ⟨hq, hne⟩
      · exact .inl rfl
      · exact .inr ⟨.inl hq, fun hpath => hne (hkey q hq hpath)⟩
    · have hheld' : w.Held q := hheld
      exact .inr ⟨.inr hheld', fun hpath => h.quiet q hheld' ⟨m, row, hlookup, hpath.symm⟩⟩
  have hback : ∀ path, ({ w with rows := upsertAnnTree w.rows row }.dropMaintainer m).Ahead path → w.Ahead path := by
    rintro path ⟨m', row', hm', hpath⟩
    exact ⟨m', row', (lookup_of_drop hm').1, hpath⟩
  have hforth : ∀ path, path ≠ row.objectPath → w.Ahead path →
      ({ w with rows := upsertAnnTree w.rows row }.dropMaintainer m).Ahead path := by
    rintro path hne ⟨m', row', hm', hpath⟩
    have hother : m' ≠ m := by
      intro heq
      rw [heq, hlookup] at hm'
      cases hm'
      exact hne hpath.symm
    exact ⟨m', row', by rw [World.dropMaintainer, lookup_drop, if_neg hother, hm'], hpath⟩
  exact
    { h with
      proper := fun q hq => by
        rcases hactive q hq with rfl | ⟨hq, -⟩
        · exact hproper
        · exact h.proper q hq
      unique := fun q q' hq hq' hpath => by
        rcases hactive q hq with rfl | ⟨hq, hne⟩
        · rcases hactive q' hq' with rfl | ⟨-, hne⟩
          · rfl
          · exact absurd hpath.symm hne
        · rcases hactive q' hq' with rfl | ⟨hq', -⟩
          · exact absurd hpath hne
          · exact h.unique q q' hq hq' hpath
      stored := fun q hq hno => by
        rcases hactive q hq with rfl | ⟨hq, hne⟩
        · exact hstored
        · exact h.stored q hq fun hold => hno (hforth _ hne hold)
      cached := fun q hq tree htree => by
        rcases hactive q hq with rfl | ⟨hq, -⟩
        · exact absurd htree (hnew tree)
        · exact h.cached q hq tree htree
      quiet := fun q hq hno => h.quiet q hq (hback _ hno)
      named := fun m' x hm' => h.named m' x (lookup_of_drop hm').1
      uploaded := fun m' row' hm' => by
        obtain ⟨hm', hne⟩ := lookup_of_drop hm'
        obtain ⟨hproper', hstored', hkey'⟩ := h.uploaded m' row' hm'
        refine ⟨hproper', hstored', fun q hq hpath => ?_⟩
        rcases mem_upsertAnnTree hproper.named (fun q hq => (h.proper q (.inl hq)).named) hq with rfl | ⟨hq, -⟩
        · exact absurd (h.one m' m row' q hm' hlookup hpath.symm) hne
        · exact hkey' q hq hpath
      one := fun m₁ m₂ r r' h₁ h₂ => h.one m₁ m₂ r r' (lookup_of_drop h₁).1 (lookup_of_drop h₂).1
      fresh := { h.fresh with } }

/-! #### Queries -/

theorem Inv.putQuery (h : Inv env w) (i : ℕ) {x : Query D F} (hnamed : x.key.model ≠ some [])
    (hrow : ∀ row, x.stage.row? = some row → w.Active row ∧ ¬ w.Ahead row.objectPath ∧ row.key = x.key ∧
      row.extentFingerprint = extentFingerprint env.contentHash x.ids)
    (hfetched : ∀ row tree, x.stage = .fetched row tree → Good env row tree) : Inv env (w.putQuery i x) := by
  have hheld : ∀ row, (w.putQuery i x).Held row → w.Active row ∧ ¬ w.Ahead row.objectPath := by
    rintro row ⟨j, y, hlookup, hy⟩
    rcases lookup_of_put hlookup with ⟨-, rfl⟩ | ⟨-, hlookup⟩
    · exact ⟨(hrow row hy).1, (hrow row hy).2.1⟩
    · exact ⟨.inr ⟨j, y, hlookup, hy⟩, h.quiet row ⟨j, y, hlookup, hy⟩⟩
  have hactive : ∀ row, (w.putQuery i x).Active row → w.Active row := by
    rintro row (hmem | hq)
    · exact .inl hmem
    · exact (hheld row hq).1
  exact
    { h with
      proper := fun row hr => h.proper row (hactive row hr)
      unique := fun row row' hr hr' => h.unique row row' (hactive row hr) (hactive row' hr')
      stored := fun row hr => h.stored row (hactive row hr)
      cached := fun row hr => h.cached row (hactive row hr)
      quiet := fun row hr => (hheld row hr).2
      query := fun j y hlookup => by
        rcases lookup_of_put hlookup with ⟨-, rfl⟩ | ⟨-, hlookup⟩
        · exact ⟨hnamed, fun row hy => (hrow row hy).2.2⟩
        · exact h.query j y hlookup
      fetched := fun j y row tree hlookup hy => by
        rcases lookup_of_put hlookup with ⟨-, rfl⟩ | ⟨-, hlookup⟩
        · exact hfetched row tree hy
        · exact h.fetched j y row tree hlookup hy
      fresh := { h.fresh with } }

theorem Inv.dropQuery (h : Inv env w) (i : ℕ) : Inv env (w.dropQuery i) := by
  have hheld : ∀ row, (w.dropQuery i).Held row → w.Held row := by
    rintro row ⟨j, y, hlookup, hy⟩
    exact ⟨j, y, (lookup_of_drop hlookup).1, hy⟩
  have hactive : ∀ row, (w.dropQuery i).Active row → w.Active row := fun row hr => hr.imp_right (hheld row)
  exact
    { h with
      proper := fun row hr => h.proper row (hactive row hr)
      unique := fun row row' hr hr' => h.unique row row' (hactive row hr) (hactive row' hr')
      stored := fun row hr => h.stored row (hactive row hr)
      cached := fun row hr => h.cached row (hactive row hr)
      quiet := fun row hr => h.quiet row (hheld row hr)
      query := fun j y hlookup => h.query j y (lookup_of_drop hlookup).1
      fetched := fun j y row tree hlookup => h.fetched j y row tree (lookup_of_drop hlookup).1
      fresh := { h.fresh with } }

theorem Inv.tree_of_good (h : Inv env w) {x : Query D F}
    (hlookup : w.queries.lookup i = some x) (hrow : x.stage.row? = some row) (hgood : Good env row tree) :
    env.tree x.key x.ids = some tree := by
  obtain ⟨-, hx⟩ := h.query i x hlookup
  obtain ⟨hkey, hfingerprint⟩ := hx row hrow
  exact hkey ▸ hgood x.ids hfingerprint

theorem Inv.finish (h : Inv env w) (i : ℕ) {x : Query D F} {tree : GlobalTree F}
    (htree : env.tree x.key x.ids = some tree) : Inv env (w.finish env i x tree) := by
  unfold World.finish
  dsimp only
  split
  · exact h.dropQuery i
  · rename_i hserved
    rw [not_or, not_not] at hserved
    have hfresh : Fresh env { w with
        answers := ⟨x.key, x.ids, x.vector, x.topP, tree, groupRefs (selectPartitions env.ops tree x.vector x.topP)⟩ ::
          w.answers } := by
      refine ⟨fun a ha => ?_, fun a ha => ?_⟩
      · rcases mem_cons.1 ha with rfl | ha
        · exact htree
        · exact h.fresh.tree a ha
      · rcases mem_cons.1 ha with rfl | ha
        · intro hbudget id hid p hp
          have hselected := selects_all htree hserved.1.symm hbudget hid hp
          exact exists_group hselected
        · exact h.fresh.all a ha
    have hinv : Inv env { w with
        answers := ⟨x.key, x.ids, x.vector, x.topP, tree, groupRefs (selectPartitions env.ops tree x.vector x.topP)⟩ ::
          w.answers } := { h with fresh := hfresh }
    exact hinv.dropQuery i

theorem Inv.insert (h : Inv env w) (hrow : w.Active row) (hgood : Good env row tree) : Inv env { w with
      cache := ((row.key, row.generation), tree) :: w.cache.filter (·.1.1 ≠ row.key) } :=
  { h with
    cached := fun q hq tree' hmem => by
      have hq' : w.Active q := hq
      rcases mem_cons.1 hmem with heq | hmem
      · obtain ⟨hkey, rfl⟩ := Prod.mk.inj heq
        have hpath : q.objectPath = row.objectPath := by
          rw [(h.proper q hq').path, (h.proper row hrow).path, (Prod.mk.inj hkey).1]
        exact h.unique q row hq' hrow hpath ▸ hgood
      · exact h.cached q hq' tree' (mem_of_mem_filter hmem)
    fresh := { h.fresh with } }

/-! #### Steps -/

theorem getAnnTree_eq_some {rows : List (AnnTreeRow D)} {key : TreeKey}
    (h : getAnnTree rows key = some row) : row ∈ rows ∧ key.same row.key = true := by
  have hfind : rows.find? (fun row => key.same row.key) = some row := h
  have hsame := find?_some hfind
  exact ⟨mem_of_find?_eq_some hfind, hsame⟩

theorem Inv.step [DecidableEq D] [DecidableEq F] (hinj : Function.Injective env.contentHash) {a : Action F}
    (h : Inv env w) (hheeds : Heeds env w a) (hstep : step env w a = some w') : Inv env w' := by
  cases a with
  | addSidecar key id =>
    simp only [AnnTree.step] at hstep
    split at hstep
    · cases hstep
    · cases hstep
      exact { h with fresh := { h.fresh with } }
  | removeExtent id =>
    cases hstep
    exact { h with fresh := { h.fresh with } }
  | list m key =>
    simp only [AnnTree.step] at hstep
    split at hstep
    · cases hstep
    · rename_i hfree
      cases hstep
      refine h.putMaintainer hheeds (fun row hrow => hfree ?_) fun row hrow => by cases hrow
      rw [hrow]
      rfl
  | dropTree m =>
    simp only [AnnTree.step] at hstep
    split at hstep
    · rename_i key hlookup
      cases hstep
      exact (h.filterRows _).dropMaintainer fun row hrow => by cases hlookup.symm.trans hrow
    · cases hstep
  | getExisting m =>
    simp only [AnnTree.step] at hstep
    split at hstep
    · rename_i key id ids hlookup
      have hbefore : ∀ row, w.maintainers.lookup m ≠ some (.uploaded row) := fun row hrow => by
        cases hlookup.symm.trans hrow
      split at hstep
      · cases hstep
        exact h.dropMaintainer hbefore
      · cases hstep
        have hnamed : key.model ≠ some [] := h.named m _ hlookup
        exact h.putMaintainer hnamed hbefore fun row hrow => by cases hrow
    · cases hstep
  | put m =>
    simp only [AnnTree.step] at hstep
    split at hstep
    · rename_i key ids existing hlookup
      split at hstep
      · rename_i tree htree
        cases hstep
        obtain ⟨hahead, hheld, hrows⟩ := hheeds key ids existing hlookup
        exact h.put hinj hlookup htree hahead hheld hrows
      · cases hstep
        exact h.dropMaintainer fun row hrow => by cases hlookup.symm.trans hrow
    · cases hstep
  | upsert m =>
    simp only [AnnTree.step] at hstep
    split at hstep
    · rename_i row hlookup
      cases hstep
      exact h.upsert hlookup (hheeds row hlookup)
    · cases hstep
  | fail m =>
    cases hstep
    exact h.dropMaintainer hheeds
  | see i key vector topP =>
    simp only [AnnTree.step] at hstep
    split at hstep
    · cases hstep
    · cases hstep
      exact h.putQuery i hheeds (fun row hrow => by cases hrow) fun row tree hstage => by cases hstage
  | readRow i =>
    simp only [AnnTree.step] at hstep
    split at hstep
    · rename_i x hlookup
      split at hstep
      · split at hstep
        · rename_i row hrow
          split at hstep
          · rename_i hfingerprint
            cases hstep
            obtain ⟨hmem, hsame⟩ := getAnnTree_eq_some hrow
            have hnamed := (h.query i x hlookup).1
            have hkey := (same_iff hnamed (h.proper row (.inl hmem)).named).1 hsame
            refine h.putQuery i hnamed (fun row' hrow' => ?_) fun row' tree hstage => by cases hstage
            cases hrow'
            exact ⟨.inl hmem, hheeds x row hlookup hrow, hkey.symm, hfingerprint.symm⟩
          · cases hstep
            exact h.dropQuery i
        · cases hstep
          exact h.dropQuery i
      · cases hstep
    · cases hstep
  | checkCache i =>
    simp only [AnnTree.step] at hstep
    split at hstep
    · rename_i x hlookup
      split at hstep
      · rename_i row hstage
        have hrow : x.stage.row? = some row := by
          rw [hstage]
          rfl
        obtain ⟨hnamed, hx⟩ := h.query i x hlookup
        obtain ⟨hkey, hfingerprint⟩ := hx row hrow
        have hheld : w.Held row := ⟨i, x, hlookup, hrow⟩
        split at hstep
        · rename_i tree htree
          cases hstep
          obtain ⟨before, after, hcache, -⟩ := lookup_eq_some_iff.1 htree
          have hmem : ((row.key, row.generation), tree) ∈ w.cache := by
            rw [hcache, hkey]
            exact mem_append_right _ mem_cons_self
          exact h.finish i (h.tree_of_good hlookup hrow (h.cached row (.inr hheld) tree hmem))
        · cases hstep
          refine h.putQuery i hnamed (fun row' hrow' => ?_) fun row' tree hstage' => by cases hstage'
          cases hrow'
          exact ⟨.inr hheld, h.quiet row hheld, hkey, hfingerprint⟩
      · cases hstep
    · cases hstep
  | fetch i =>
    simp only [AnnTree.step] at hstep
    split at hstep
    · rename_i x hlookup
      split at hstep
      · rename_i row hstage
        have hrow : x.stage.row? = some row := by
          rw [hstage]
          rfl
        obtain ⟨hnamed, hx⟩ := h.query i x hlookup
        obtain ⟨hkey, hfingerprint⟩ := hx row hrow
        have hheld : w.Held row := ⟨i, x, hlookup, hrow⟩
        split at hstep
        · rename_i tree htree
          cases hstep
          -- nobody is ahead, so what is at the path is the tree of the row
          obtain ⟨tree', htree', hgood⟩ := h.stored row (.inr hheld) (h.quiet row hheld)
          rw [htree] at htree'
          obtain rfl := Option.some.inj htree'
          refine h.putQuery i hnamed (fun row' hrow' => ?_) fun row' tree' hstage' => ?_
          · cases hrow'
            exact ⟨.inr hheld, h.quiet row hheld, hkey, hfingerprint⟩
          · cases hstage'
            exact hgood
        · cases hstep
          exact h.dropQuery i
      · cases hstep
    · cases hstep
  | insert i =>
    simp only [AnnTree.step] at hstep
    split at hstep
    · rename_i x hlookup
      split at hstep
      · rename_i row tree hstage
        have hrow : x.stage.row? = some row := by
          rw [hstage]
          rfl
        have hheld : w.Held row := ⟨i, x, hlookup, hrow⟩
        have hgood := h.fetched i x row tree hlookup hstage
        have hkey := ((h.query i x hlookup).2 row hrow).1
        cases hstep
        have hcached := h.insert (.inr hheld) hgood
        rw [hkey] at hcached
        exact hcached.finish i (h.tree_of_good hlookup hrow hgood)
      · cases hstep
    · cases hstep
  | giveUp i =>
    cases hstep
    exact h.dropQuery i

/-- **The tree in use is fresh** in every run whose steps heed the condition, for a hash without collisions. -/
theorem fresh_of_heeds [DecidableEq D] [DecidableEq F] (env : Env D F) (hinj : Function.Injective env.contentHash)
    (h : Runs.Reach (AnnTree.step env) (Heeds env) World.init w) : Fresh env w := by
  have hinv : Inv env w := h.inv .init fun _ _ _ hinv hheeds hstep => hinv.step hinj hheeds hstep
  exact hinv.fresh

end Inv

/-! #### Runs on one column -/

def firstRows : Trainer ℤ where
  train rows _ nlist := (rows ++ List.replicate nlist []).take nlist
  length_train rows _ nlist := by
    rw [length_take, length_append, length_replicate]
    omega

def unitEnv : Env (List (Fin 256)) ℤ where
  ops := ⟨0, 1000, fun a b => a + b, fun a b => a - b, fun a b => a * b, fun a b => decide (a < b)⟩
  trainer := firstRows
  contentHash bytes := bytes
  uuidText id := List.replicate id '1'
  tenantOf _ := 1
  content _ _ := ⟨1, [[1]], fun c hc => by rw [mem_singleton.1 hc]; rfl⟩

def extentOf (b : Fin 256) : Uuid := ⟨List.replicate 16 b, rfl⟩

def columnKey (model : Text) : TreeKey := ⟨2, ['v'], some model⟩

theorem unitEnv_hash : Function.Injective unitEnv.contentHash := fun _ _ h => h

/-- A tree is built, its row is written, and a query is answered from it. -/
theorem fresh_of_heeds_answered : ∃ w, w.answers.length = 1 ∧ Fresh unitEnv w := by
  have named : (columnKey ['m']).model ≠ some [] := by decide
  have h₀ : Runs.Reach (step unitEnv) (Heeds unitEnv) World.init World.init := .init
  have h₁ := h₀.step (Action.addSidecar (columnKey ['m']) (extentOf 1)) trivial rfl
  have h₂ := h₁.step (Action.list 1 (columnKey ['m'])) named rfl
  have h₃ := h₂.step (Action.getExisting 1) trivial rfl
  have h₄ := h₃.step (Action.put 1) (by
    intro key ids existing hlookup
    refine ⟨?_, ?_, fun row hrow => by cases hrow⟩
    · rintro ⟨m, row, hm, -⟩
      rcases lookup_of_put hm with ⟨-, hrow⟩ | ⟨-, hm⟩
      · cases hrow
      · rcases lookup_of_put hm with ⟨-, hrow⟩ | ⟨-, hm⟩
        · cases hrow
        · cases hm
    · rintro row ⟨i, x, hi, -⟩
      cases hi) rfl
  have h₅ := h₄.step (Action.upsert 1) (fun row _ tree hcached => by cases hcached) rfl
  have h₆ := h₅.step (Action.see 1 (columnKey ['m']) [1] 1) named rfl
  have h₇ := h₆.step (Action.readRow 1) (by
    rintro x row - - ⟨m, row', hm, -⟩
    cases hm) rfl
  have h₈ := h₇.step (Action.checkCache 1) trivial rfl
  have h₉ := h₈.step (Action.fetch 1) trivial rfl
  have h₁₀ := h₉.step (Action.insert 1) trivial rfl
  exact ⟨_, rfl, fresh_of_heeds unitEnv unitEnv_hash h₁₀⟩

def countAgain : List (Action ℤ) :=
  let key := columnKey ['m']
  [.addSidecar key (extentOf 1), .list 1 key, .getExisting 1, .put 1, .upsert 1,
    .see 1 key [1] 1, .readRow 1, .checkCache 1, .fetch 1, .insert 1,
    .removeExtent (extentOf 1), .list 1 key, .dropTree 1,
    .addSidecar key (extentOf 2), .list 1 key, .getExisting 1, .put 1, .upsert 1,
    .see 1 key [1] 1, .readRow 1, .checkCache 1]

def sharePath : List (Action ℤ) :=
  let key := columnKey ['a', '/', 'b']
  let key' := columnKey ['a', '_', 'b']
  [.addSidecar key (extentOf 1), .list 1 key, .getExisting 1, .put 1, .upsert 1,
    .addSidecar key' (extentOf 2), .list 1 key', .getExisting 1, .put 1, .upsert 1,
    .see 1 key [1] 1, .readRow 1, .checkCache 1, .fetch 1, .insert 1]

/-- **A tree of other sidecars is used**: under a generation that is counted again, and at a path of two models. -/
theorem reused : (∃ w, Runs.run (step unitEnv) Runs.Free World.init countAgain = some w ∧ ¬ Fresh unitEnv w) ∧
      ∃ w, Runs.run (step unitEnv) Runs.Free World.init sharePath = some w ∧ ¬ Fresh unitEnv w := by
  constructor
  · exact ⟨_, rfl, fun h => absurd (h.tree _ mem_cons_self) (by decide)⟩
  · exact ⟨_, rfl, fun h => absurd (h.tree _ mem_cons_self) (by decide)⟩

end AnnTree
