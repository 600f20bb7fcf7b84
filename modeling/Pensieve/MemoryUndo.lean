/-
**Undoing an operation on memories.**

Memories are rows that are only appended, and of the rows of a node the newest counts.  An operation keeps the rows
that it has replaced, and its inverse appends them again.
-/

import Pensieve.MemoryFilter

namespace MemoryGate

open List
open Catalog (Json)

/-! ### The store -/

/-- The columns of a node, but for `id` and `updated_at`. -/
inductive Column
  | labels | realm | memoryType | title | content | contentPreview | tags | importance | status | sourceSessionId
  | sourceRunId | embedding | createdAt | validAt | invalidAt | supersededBy | provenance | topicKey | memoryClass
  | space | writerAgentId
  deriving DecidableEq

/-- What `latest_node_sql` selects. -/
def Column.selected : Column → Bool
  | .memoryClass | .space | .writerAgentId => false
  | _ => true

/-- Times `T` are in the order of their texts. -/
structure Row (T F : Type) where
  id : String
  updatedAt : T
  get : Column → Json F

structure EdgeRef where
  src : String
  dst : String
  rel : String
  realm : String
  targetNamespace : Option String
  deriving DecidableEq

structure EdgeRow (T F : Type) extends EdgeRef where
  props : Option (Json F)
  createdAt : T

structure Store (T F : Type) where
  nodes : List (Row T F)
  edges : List (EdgeRow T F)

variable {T F A : Type}

def Row.set (r : Row T F) (c : Column) (v : Json F) : Row T F := { r with get := Function.update r.get c v }

def Row.stamp (r : Row T F) (now : T) : Row T F := { r with updatedAt := now }

def Store.appendNodeRows (s : Store T F) (rows : List (Row T F)) : Store T F := { s with nodes := s.nodes ++ rows }

def Store.appendEdgeRows (s : Store T F) (edges : List EdgeRef) (props : Option (Json F)) (now : T) : Store T F :=
  { s with edges := s.edges ++ edges.map fun e => ⟨e, props, now⟩ }

/-- The row that `row_number()` gives the number one in the order of `updated_at DESC`; of several the engine picks. -/
structure Engine (T F : Type) [LinearOrder T] where
  first : List (Row T F) → Option (Row T F)
  isSome_first : ∀ rows, rows ≠ [] → (first rows).isSome
  first_spec : ∀ rows r, first rows = some r → r ∈ rows ∧ ∀ x ∈ rows, x.updatedAt ≤ r.updatedAt

/-! ### Operations -/

/-- A memory to be created; `rest` is what makes its columns. -/
structure AddSpec (A : Type) where
  realm : String
  references : List String
  rest : A

inductive OpPayload (A : Type)
  | add (spec : AddSpec A)
  | update (targetId newContent : String)
  | invalidate (targetId : String) (replacement : AddSpec A)
  | supersede (targetId byId : String)
  | merge (intoId : String) (fromIds : List String)
  | archive (memoryId : String)
  | link (edge : EdgeRef)

inductive MemoryOp
  | add | update | invalidate | merge | archive | linkEntityCrossRealm | relationshipWrite | promoteFileCandidate
  | induceSchema
  deriving DecidableEq

def OpPayload.ops : OpPayload A → List MemoryOp
  | .add _ => [.add, .promoteFileCandidate, .induceSchema]
  | .update _ _ => [.update]
  | .invalidate _ _ | .supersede _ _ => [.invalidate]
  | .merge _ _ => [.merge]
  | .archive _ => [.archive]
  | .link _ => [.linkEntityCrossRealm, .relationshipWrite]

structure AppliedRef (T F : Type) where
  createdNodeId : Option String
  priorRows : List (Row T F)
  edges : List EdgeRef

inductive Inverse (T F : Type)
  | archiveNode (nodeId : String)
  | restoreRows (rows : List (Row T F))
  | removeEdges (edges : List EdgeRef)
  | multi (steps : List (Inverse T F))

def inverseOf (op : MemoryOp) (applied : AppliedRef T F) : Option (Inverse T F) :=
  match op with
  | .add | .promoteFileCandidate | .induceSchema => applied.createdNodeId.map .archiveNode
  | .update | .archive => if applied.priorRows = [] then none else some (.restoreRows applied.priorRows)
  | .invalidate =>
    some (.multi ([.restoreRows applied.priorRows] ++ (applied.createdNodeId.map .archiveNode).toList ++
      if applied.edges = [] then [] else [.removeEdges applied.edges]))
  | .merge => some (.multi [.restoreRows applied.priorRows, .removeEdges applied.edges])
  | .linkEntityCrossRealm | .relationshipWrite =>
    if applied.edges = [] then none else some (.removeEdges applied.edges)

/-- What a writer gets from its backends: the columns of a new memory, and the vector of a text. -/
structure Lib (T F A : Type) where
  node : AddSpec A → T → Option (Column → Json F)
  embedOne : String → Option (List F)
  rfc3339 : T → String

/-- What a call draws: the id of a new node, the times it reads, and whether an edge is written that may fail. -/
structure Draws (T : Type) where
  newId : String
  saved : T
  now : T
  linkedAt : T
  linked : Bool

def preview (content : String) : String :=
  let trimmed := Recall.trim content.toList
  if trimmed.length ≤ 280 then .ofList trimmed else .ofList (trimmed.take 280 ++ ['…'])

def archived : Json F := .str "archived"

def realmOf (prior : Row T F) : String :=
  match prior.get .realm with
  | .str realm => realm
  | _ => "default"

section Gate

variable [LinearOrder T] (eng : Engine T F)

def latest (s : Store T F) (id : String) : Option (Row T F) := eng.first (s.nodes.filter (·.id = id))

def fetchLatestNode (s : Store T F) (id : String) : Option (Row T F) :=
  (latest eng s id).map fun r => { r with get := fun c => if c.selected then r.get c else .null }

variable (lib : Lib T F A) (d : Draws T)

def addSpec (s : Store T F) (spec : AddSpec A) : Option (Store T F) :=
  (lib.node spec d.saved).map fun columns =>
    (s.appendNodeRows [⟨d.newId, d.saved, columns⟩]).appendEdgeRows
      (spec.references.map fun r => ⟨d.newId, r, "REFERENCES", spec.realm, none⟩) none d.saved

def supersede (s : Store T F) (prior : Row T F) (byId : String) (edge : EdgeRef) : Store T F :=
  let now := .str (lib.rfc3339 d.now)
  let s := s.appendNodeRows [((prior.set .invalidAt now).set .supersededBy (.str byId)).stamp d.now]
  if d.linked then s.appendEdgeRows [edge] none d.linkedAt else s

def mergeStep (now : T) (intoId : String) (st : Store T F × AppliedRef T F) (source : String) :
    Store T F × AppliedRef T F :=
  if source = intoId then st
  else
    match fetchLatestNode eng st.1 source with
    | none => st
    | some prior =>
      let edge : EdgeRef := ⟨source, intoId, "MERGED_INTO", realmOf prior, none⟩
      ((st.1.appendNodeRows [(prior.set .status archived).stamp now]).appendEdgeRows [edge] none now,
        { st.2 with priorRows := st.2.priorRows ++ [prior], edges := st.2.edges ++ [edge] })

def applyOp (s : Store T F) : OpPayload A → Option (Store T F × AppliedRef T F)
  | .add spec => do
    let s ← addSpec lib d s spec
    return (s, ⟨some d.newId, [], []⟩)
  | .update targetId newContent => do
    let prior ← fetchLatestNode eng s targetId
    let emb ← lib.embedOne newContent
    let row := ((prior.set .content (.str newContent)).set .contentPreview (.str (preview newContent))).set .embedding
      (.arr (emb.map .float))
    return (s.appendNodeRows [(row.set .validAt (.str (lib.rfc3339 d.now))).stamp d.now], ⟨none, [prior], []⟩)
  | .archive memoryId => do
    let prior ← fetchLatestNode eng s memoryId
    return (s.appendNodeRows [(prior.set .status archived).stamp d.now], ⟨none, [prior], []⟩)
  | .invalidate targetId replacement => do
    let s ← addSpec lib d s replacement
    let prior ← fetchLatestNode eng s targetId
    let edge : EdgeRef := ⟨d.newId, targetId, "INVALIDATES", replacement.realm, none⟩
    return (supersede lib d s prior d.newId edge, ⟨some d.newId, [prior], [edge]⟩)
  | .supersede targetId byId => do
    let prior ← fetchLatestNode eng s targetId
    let edge : EdgeRef := ⟨byId, targetId, "INVALIDATES", realmOf prior, none⟩
    return (supersede lib d s prior byId edge, ⟨none, [prior], [edge]⟩)
  | .merge intoId fromIds => some (fromIds.foldl (mergeStep eng d.now intoId) (s, ⟨none, [], []⟩))
  | .link edge => if d.linked then some (s.appendEdgeRows [edge] none d.linkedAt, ⟨none, [], [edge]⟩) else none

/-- `{ "deleted": true, "deleted_at": now }` -/
def tombstone (now : T) : Json F := .obj [("deleted", .bool true), ("deleted_at", .str (lib.rfc3339 now))]

mutual

/-- `now i` is the time that the step `i` reads. -/
def applyInverse (now : Inverse T F → T) (s : Store T F) : Inverse T F → Store T F
  | .archiveNode nodeId =>
    match fetchLatestNode eng s nodeId with
    | none => s
    | some row => s.appendNodeRows [(row.set .status archived).stamp (now (.archiveNode nodeId))]
  | .restoreRows rows => s.appendNodeRows (rows.map (·.stamp (now (.restoreRows rows))))
  | .removeEdges edges =>
    s.appendEdgeRows edges (some (tombstone lib (now (.removeEdges edges)))) (now (.removeEdges edges))
  | .multi steps => applyInverses now s steps

def applyInverses (now : Inverse T F → T) (s : Store T F) : List (Inverse T F) → Store T F
  | [] => s
  | i :: is => applyInverses now (applyInverse now s i) is

end

/-- `neighbors_sql` -/
def neighbors (s : Store T F) (seedIds realms : List String) (limit : ℕ) : List (EdgeRow T F) :=
  (s.edges.filter fun e => (e.src ∈ seedIds ∨ e.dst ∈ seedIds) ∧ (realms = [] ∨ e.realm ∈ realms)).take limit

/-! ### What counts of a node -/

variable {eng lib d} {s s' final : Store T F} {applied : AppliedRef T F} {rows : List (Row T F)} {id : String}
  {r prior : Row T F}

theorem Engine.first_eq (hr : r ∈ rows) (h : ∀ x ∈ rows, x = r ∨ x.updatedAt < r.updatedAt) :
    eng.first rows = some r := by
  obtain ⟨x, hx⟩ := Option.isSome_iff_exists.1 (eng.isSome_first rows (ne_nil_of_mem hr))
  obtain ⟨hmem, hle⟩ := eng.first_spec rows x hx
  rcases h x hmem with rfl | hlt
  · exact hx
  · exact absurd (hle r hr) (not_le.2 hlt)

theorem latest_append (hnodes : s'.nodes = s.nodes ++ rows) (h : ∀ x ∈ rows, x.id ≠ id) :
    latest eng s' id = latest eng s id := by
  have hnone : rows.filter (·.id = id) = [] := filter_eq_nil_iff.2 (by simpa using h)
  rw [latest, hnodes, filter_append, hnone, append_nil, latest]

theorem latest_spec (h : latest eng s id = some r) : r ∈ s.nodes ∧ r.id = id := by
  simpa using mem_filter.1 (eng.first_spec _ r h).1

theorem exists_latest (eng : Engine T F) (hr : r ∈ s.nodes) : ∃ x, latest eng s r.id = some x :=
  Option.isSome_iff_exists.1 (eng.isSome_first _ (ne_nil_of_mem (mem_filter.2 ⟨hr, by simp⟩)))

theorem fetch_append (hnodes : s'.nodes = s.nodes ++ rows) (h : ∀ x ∈ rows, x.id ≠ id) :
    fetchLatestNode eng s' id = fetchLatestNode eng s id := by
  rw [fetchLatestNode, latest_append hnodes h, fetchLatestNode]

theorem fetch_spec (h : fetchLatestNode eng s id = some prior) : prior.id = id ∧
    ∃ r, latest eng s id = some r ∧ ∀ c, c.selected = true → prior.get c = r.get c := by
  obtain ⟨r, hr, rfl⟩ := Option.map_eq_some_iff.1 h
  exact ⟨(latest_spec hr).2, r, hr, fun c hc => if_pos hc⟩

/-! ### What an operation records -/

/-- The operation has appended rows of nodes that it has recorded, and the prior rows are what it has found. -/
structure Records (eng : Engine T F) (s s' : Store T F) (applied : AppliedRef T F) : Prop where
  nodes : ∃ new, s'.nodes = s.nodes ++ new ∧
    ∀ r ∈ new, r.id ∈ applied.priorRows.map Row.id ∨ applied.createdNodeId = some r.id
  prior : ∀ p ∈ applied.priorRows, fetchLatestNode eng s p.id = some p
  nodup : (applied.priorRows.map Row.id).Nodup
  created : ∀ id, applied.createdNodeId = some id → (∀ r ∈ s.nodes, r.id ≠ id) ∧ ∃ r ∈ s'.nodes, r.id = id

def AppliedRef.Fits (applied : AppliedRef T F) : MemoryOp → Prop
  | .add | .promoteFileCandidate | .induceSchema =>
    (∃ id, applied.createdNodeId = some id) ∧ applied.priorRows = [] ∧ applied.edges = []
  | .update | .archive => applied.createdNodeId = none ∧ applied.priorRows ≠ [] ∧ applied.edges = []
  | .invalidate => True
  | .merge => applied.createdNodeId = none
  | .linkEntityCrossRealm | .relationshipWrite =>
    applied.createdNodeId = none ∧ applied.priorRows = [] ∧ applied.edges ≠ []

/-- What an operation may rely on: the id of a new node is new, and no memory is merged twice. -/
structure Orderly (s : Store T F) (d : Draws T) (payload : OpPayload A) : Prop where
  fresh : ∀ r ∈ s.nodes, r.id ≠ d.newId
  other : ∀ targetId spec, payload = .invalidate targetId spec → targetId ≠ d.newId
  once : ∀ intoId fromIds, payload = .merge intoId fromIds → fromIds.Nodup

omit [LinearOrder T] in
theorem nodes_supersede (lib : Lib T F A) (d : Draws T) (s : Store T F) (byId : String) (edge : EdgeRef) :
    ∃ row, row.id = prior.id ∧ (supersede lib d s prior byId edge).nodes = s.nodes ++ [row] := by
  unfold supersede
  split <;> exact ⟨_, by rfl, rfl⟩

omit [LinearOrder T] in
theorem nodes_addSpec {spec : AddSpec A} (h : addSpec lib d s spec = some s') :
    ∃ row, row.id = d.newId ∧ s'.nodes = s.nodes ++ [row] := by
  obtain ⟨columns, -, rfl⟩ := Option.map_eq_some_iff.1 h
  exact ⟨_, by rfl, rfl⟩

theorem records_one (hfetch : fetchLatestNode eng s id = some prior) (hid : r.id = prior.id)
    (hnodes : s'.nodes = s.nodes ++ [r]) (edges : List EdgeRef) : Records eng s s' ⟨none, [prior], edges⟩ where
  nodes := ⟨[r], hnodes, by simp [hid]⟩
  prior := by simpa [(fetch_spec hfetch).1] using hfetch
  nodup := nodup_singleton _
  created := nofun

theorem mergeStep_spec (now : T) (intoId : String) {source : String} {st : Store T F × AppliedRef T F}
    (h : Records eng s s' applied) (hcreated : applied.createdNodeId = none)
    (hnew : source ∉ applied.priorRows.map Row.id) (hst : st = mergeStep eng now intoId (s', applied) source) :
    Records eng s st.1 st.2 ∧ st.2.createdNodeId = none ∧
      ∀ x ∈ st.2.priorRows.map Row.id, x ∈ applied.priorRows.map Row.id ∨ x = source := by
  subst hst
  unfold mergeStep
  split
  · exact ⟨h, hcreated, fun _ => .inl⟩
  split
  next => exact ⟨h, hcreated, fun _ => .inl⟩
  next prior hfetch =>
    obtain ⟨new, hnodes, hids⟩ := h.nodes
    have hother : ∀ x ∈ new, x.id ≠ source := fun x hx heq =>
      (hids x hx).elim (fun hmem => hnew (heq ▸ hmem)) fun hmade => by simp [hcreated] at hmade
    rw [fetch_append hnodes hother] at hfetch
    obtain ⟨hid, -⟩ := fetch_spec hfetch
    refine ⟨⟨⟨new ++ [(prior.set .status archived).stamp now], ?_, ?_⟩, ?_, ?_, by simp [hcreated]⟩, hcreated, ?_⟩
    · simp [Store.appendNodeRows, Store.appendEdgeRows, hnodes]
    · intro x hx
      rcases mem_append.1 hx with hx | hx
      · exact (hids x hx).imp_left fun hmem => by simp_all
      · obtain rfl := mem_singleton.1 hx
        exact .inl (by simp [Row.stamp, Row.set])
    · intro p hp
      rcases mem_append.1 hp with hp | hp
      · exact h.prior p hp
      · obtain rfl := mem_singleton.1 hp
        rwa [hid]
    · rw [map_append, nodup_append]
      refine ⟨h.nodup, nodup_singleton _, fun x hx y hy hxy => hnew ?_⟩
      rw [← hid, ← mem_singleton.1 hy, ← hxy]
      exact hx
    · intro x hx
      rw [map_append, mem_append] at hx
      exact hx.imp_right fun hx => (mem_singleton.1 hx).trans hid

theorem records_merge {now : T} {intoId : String} {fromIds : List String} (h : Records eng s s' applied)
    (hcreated : applied.createdNodeId = none) (hnew : ∀ x ∈ fromIds, x ∉ applied.priorRows.map Row.id)
    (honce : fromIds.Nodup) {st : Store T F × AppliedRef T F}
    (hst : st = fromIds.foldl (mergeStep eng now intoId) (s', applied)) :
    Records eng s st.1 st.2 ∧ st.2.createdNodeId = none := by
  induction fromIds generalizing s' applied with
  | nil =>
    subst hst
    exact ⟨h, hcreated⟩
  | cons source fromIds ih =>
    obtain ⟨hsource, hrest⟩ := forall_mem_cons.1 hnew
    obtain ⟨hnotin, honce⟩ := nodup_cons.1 honce
    obtain ⟨hstep, hcreated', hids⟩ := mergeStep_spec now intoId h hcreated hsource rfl
    refine ih hstep hcreated' (fun x hx hmem => ?_) honce hst
    rcases hids x hmem with hold | rfl
    · exact hrest x hx hold
    · exact hnotin hx

theorem records_applyOp {payload : OpPayload A} (ho : Orderly s d payload)
    (h : applyOp eng lib d s payload = some (s', applied)) :
    Records eng s s' applied ∧ ∀ op ∈ payload.ops, applied.Fits op := by
  have hnone : Records eng s s ⟨none, [], []⟩ := ⟨⟨[], by simp, by simp⟩, by simp, nodup_nil, nofun⟩
  cases payload with
  | add spec =>
    obtain ⟨s₁, hadd, h⟩ := Option.bind_eq_some_iff.1 h
    cases h
    obtain ⟨row, hid, hnodes⟩ := nodes_addSpec hadd
    refine ⟨⟨⟨[row], hnodes, by simp [hid]⟩, by simp, nodup_nil, fun id hmade => ?_⟩,
      by simp [OpPayload.ops, AppliedRef.Fits]⟩
    cases hmade
    exact ⟨ho.fresh, row, by simp [hnodes], hid⟩
  | update targetId newContent =>
    obtain ⟨prior, hfetch, h⟩ := Option.bind_eq_some_iff.1 h
    obtain ⟨emb, -, h⟩ := Option.bind_eq_some_iff.1 h
    cases h
    exact ⟨records_one hfetch (by rfl) rfl [], by simp [OpPayload.ops, AppliedRef.Fits]⟩
  | archive memoryId =>
    obtain ⟨prior, hfetch, h⟩ := Option.bind_eq_some_iff.1 h
    cases h
    exact ⟨records_one hfetch (by rfl) rfl [], by simp [OpPayload.ops, AppliedRef.Fits]⟩
  | invalidate targetId replacement =>
    obtain ⟨s₁, hadd, h⟩ := Option.bind_eq_some_iff.1 h
    obtain ⟨prior, hfetch, h⟩ := Option.bind_eq_some_iff.1 h
    cases h
    obtain ⟨made, hmade, hnodes⟩ := nodes_addSpec hadd
    have hother := ho.other targetId replacement rfl
    rw [fetch_append hnodes (by simp [hmade, hother.symm])] at hfetch
    obtain ⟨row, hrow, hnodes'⟩ := nodes_supersede lib d s₁ d.newId
      ⟨d.newId, targetId, "INVALIDATES", replacement.realm, none⟩
    rw [hnodes, append_assoc] at hnodes'
    refine ⟨⟨⟨_, hnodes', by simp [hmade, hrow]⟩, ?_, nodup_singleton _, fun id hid => ?_⟩,
      by simp [OpPayload.ops, AppliedRef.Fits]⟩
    · simpa [(fetch_spec hfetch).1] using hfetch
    · cases hid
      exact ⟨ho.fresh, made, by simp [hnodes'], hmade⟩
  | supersede targetId byId =>
    obtain ⟨prior, hfetch, h⟩ := Option.bind_eq_some_iff.1 h
    cases h
    obtain ⟨row, hrow, hnodes⟩ := nodes_supersede lib d s byId ⟨byId, targetId, "INVALIDATES", realmOf prior, none⟩
    exact ⟨records_one hfetch hrow hnodes _, by simp [OpPayload.ops, AppliedRef.Fits]⟩
  | merge intoId fromIds =>
    obtain ⟨hrec, hcreated⟩ := records_merge hnone rfl (by simp) (ho.once intoId fromIds rfl) (Option.some.inj h).symm
    exact ⟨hrec, by simpa [OpPayload.ops, AppliedRef.Fits] using hcreated⟩
  | link edge =>
    simp only [applyOp, Option.ite_none_right_eq_some] at h
    obtain ⟨-, h⟩ := h
    cases h
    exact ⟨⟨⟨[], by simp [Store.appendEdgeRows], by simp⟩, by simp, nodup_nil, nofun⟩,
      by simp [OpPayload.ops, AppliedRef.Fits]⟩

/-! ### What an inverse leaves -/

/-- **The operation is undone**: every node has its selected columns again, a node that was made is archived, and the
edges are marked. -/
structure Undone (eng : Engine T F) (lib : Lib T F A) (s : Store T F) (applied : AppliedRef T F) (final : Store T F) :
    Prop where
  restored : ∀ id r, latest eng s id = some r →
    ∃ r', latest eng final id = some r' ∧ ∀ c, c.selected = true → r'.get c = r.get c
  hidden : ∀ id, applied.createdNodeId = some id → ∃ r, latest eng final id = some r ∧ r.get .status = archived
  marked : ∀ e ∈ applied.edges, ∃ now, ⟨e, some (tombstone lib now), now⟩ ∈ final.edges

theorem undone_of_append {t : T} {hidden : List (Row T F)} (h : Records eng s s' applied)
    (hnodes : final.nodes = s'.nodes ++ (applied.priorRows.map (·.stamp t) ++ hidden))
    (hlater : ∀ x ∈ s'.nodes, x.updatedAt < t)
    (hhidden : ∀ x ∈ hidden, applied.createdNodeId = some x.id ∧ x.get .status = archived ∧
      ∀ y ∈ s'.nodes, y.updatedAt < x.updatedAt) (hmade : ∀ id, applied.createdNodeId = some id → hidden ≠ [])
    (hmarked : ∀ e ∈ applied.edges, ∃ now, ⟨e, some (tombstone lib now), now⟩ ∈ final.edges) :
    Undone eng lib s applied final := by
  obtain ⟨new, hnew, hids⟩ := h.nodes
  refine ⟨fun id r hr => ?_, fun id hid => ?_, hmarked⟩
  · obtain ⟨hmem, hid⟩ := latest_spec hr
    have hfresh : applied.createdNodeId ≠ some id := fun hid' => (h.created id hid').1 r hmem hid
    by_cases hprior : id ∈ applied.priorRows.map Row.id
    · obtain ⟨p, hp, rfl⟩ := mem_map.1 hprior
      obtain ⟨-, r₀, hr₀, hcols⟩ := fetch_spec (h.prior p hp)
      obtain rfl := Option.some.inj (hr.symm.trans hr₀)
      refine ⟨p.stamp t, Engine.first_eq ?_ fun x hx => ?_, hcols⟩
      · rw [hnodes]
        exact mem_filter.2 ⟨mem_append_right _ (mem_append_left _ (mem_map_of_mem hp)), by simp [Row.stamp]⟩
      · obtain ⟨hx, hxid⟩ := mem_filter.1 hx
        rw [hnodes] at hx
        rcases mem_append.1 hx with hx | hx
        · exact .inr (hlater x hx)
        rcases mem_append.1 hx with hx | hx
        · obtain ⟨q, hq, rfl⟩ := mem_map.1 hx
          exact .inl (by rw [inj_on_of_nodup_map h.nodup hq hp (of_decide_eq_true hxid)])
        · exact absurd ((hhidden x hx).1.trans (by simpa using hxid)) hfresh
    · refine ⟨r, ?_, fun c _ => rfl⟩
      rw [← hr]
      have hall : final.nodes = s.nodes ++ (new ++ (applied.priorRows.map (·.stamp t) ++ hidden)) := by
        rw [hnodes, hnew, append_assoc]
      refine latest_append hall fun x hx heq => ?_
      rcases mem_append.1 hx with hx | hx
      · exact (hids x hx).elim (fun hmem => hprior (heq ▸ hmem)) fun hmade => hfresh (heq ▸ hmade)
      rcases mem_append.1 hx with hx | hx
      · obtain ⟨q, hq, rfl⟩ := mem_map.1 hx
        exact hprior (mem_map.2 ⟨q, hq, heq⟩)
      · exact hfresh (heq ▸ (hhidden x hx).1)
  · obtain ⟨y, hy⟩ := exists_mem_of_ne_nil _ (hmade id hid)
    obtain ⟨hyid, -, hylater⟩ := hhidden y hy
    obtain rfl : id = y.id := Option.some.inj (hid.symm.trans hyid)
    obtain ⟨r, hr⟩ := exists_latest (s := final) (r := y) eng (by simp [hnodes, hy])
    refine ⟨r, hr, ?_⟩
    obtain ⟨hmem, hrid⟩ := latest_spec hr
    rw [hnodes] at hmem
    rcases mem_append.1 hmem with hmem | hmem
    · refine absurd ((eng.first_spec _ r hr).2 y ?_) (not_le.2 (hylater r hmem))
      exact mem_filter.2 ⟨by simp [hnodes, hy], by simp⟩
    rcases mem_append.1 hmem with hmem | hmem
    · obtain ⟨p, hp, rfl⟩ := mem_map.1 hmem
      obtain ⟨-, r₀, hr₀, -⟩ := fetch_spec (h.prior p hp)
      obtain ⟨hr₀, hid₀⟩ := latest_spec hr₀
      exact absurd (hid₀.trans hrid) ((h.created _ hid).1 r₀ hr₀)
    · exact (hhidden r hmem).2.1

variable {now : Inverse T F → T}

theorem applyInverses_append (is js : List (Inverse T F)) :
    applyInverses eng lib now s (is ++ js) = applyInverses eng lib now (applyInverses eng lib now s is) js := by
  induction is generalizing s with
  | nil => rw [nil_append, applyInverses]
  | cons i is ih => rw [cons_append, applyInverses, ih, applyInverses]

theorem applyInverse_archiveNode (eng : Engine T F) (lib : Lib T F A) (now : Inverse T F → T)
    (h : ∃ r ∈ s.nodes, r.id = id) : ∃ row : Row T F, row.id = id ∧ row.get .status = archived ∧
      row.updatedAt = now (.archiveNode id) ∧ applyInverse eng lib now s (.archiveNode id) = s.appendNodeRows [row] := by
  obtain ⟨r, hr, rfl⟩ := h
  obtain ⟨x, hx⟩ := exists_latest eng hr
  have hfetch : fetchLatestNode eng s r.id = some _ := congrArg (Option.map _) hx
  refine ⟨_, ?_, ?_, ?_, by rw [applyInverse, hfetch]⟩
  · exact (latest_spec hx).2
  · simp [Row.set, Row.stamp]
  · rfl

def steps (applied : AppliedRef T F) : List (Inverse T F) :=
  [.restoreRows applied.priorRows] ++ (applied.createdNodeId.map .archiveNode).toList ++
    if applied.edges = [] then [] else [.removeEdges applied.edges]

theorem undone_steps (lib : Lib T F A) (h : Records eng s s' applied)
    (hlater : ∀ i, ∀ r ∈ s'.nodes, r.updatedAt < now i) :
    Undone eng lib s applied (applyInverses eng lib now s' (steps applied)) := by
  have hmarked : ∀ s₂ : Store T F, (applyInverses eng lib now s₂
      (if applied.edges = [] then [] else [.removeEdges applied.edges])).nodes = s₂.nodes ∧
      ∀ e ∈ applied.edges, ∃ t, ⟨e, some (tombstone lib t), t⟩ ∈ (applyInverses eng lib now s₂
        (if applied.edges = [] then [] else [.removeEdges applied.edges])).edges := by
    intro s₂
    split
    next hnone => simp [applyInverses, hnone]
    next => exact ⟨rfl, fun e he => ⟨now (.removeEdges applied.edges), mem_append_right _ (mem_map_of_mem he)⟩⟩
  rw [steps, append_assoc, singleton_append, applyInverses, applyInverse, applyInverses_append]
  obtain ⟨t, ht⟩ : ∃ t, t = now (.restoreRows applied.priorRows) := ⟨_, rfl⟩
  have hlater' : ∀ x ∈ s'.nodes, x.updatedAt < t := ht ▸ hlater _
  rw [← ht]
  cases hcreated : applied.createdNodeId with
  | none =>
    obtain ⟨hnodes, hedges⟩ := hmarked (s'.appendNodeRows (applied.priorRows.map (·.stamp t)))
    refine undone_of_append h (hnodes.trans ?_) hlater' (fun _ hx => (not_mem_nil hx).elim) (by simp [hcreated]) hedges
    simp [Store.appendNodeRows]
  | some id =>
    obtain ⟨r, hr, rfl⟩ := (h.created id hcreated).2
    obtain ⟨row, hrow, harchived, htime, happly⟩ := applyInverse_archiveNode eng lib now
      (s := s'.appendNodeRows (applied.priorRows.map (·.stamp t))) ⟨r, mem_append_left _ hr, rfl⟩
    simp only [Option.map_some, Option.toList_some, applyInverses, happly]
    obtain ⟨hnodes, hedges⟩ := hmarked _
    refine undone_of_append h (hnodes.trans (append_assoc ..)) hlater' (fun x hx => ?_) (by simp) hedges
    obtain rfl := mem_singleton.1 hx
    exact ⟨by rw [hcreated, hrow], harchived, htime ▸ hlater _⟩

/-- **Undo inverts an operation**, if its steps read times that are later than those of all rows. -/
theorem undo_apply {payload : OpPayload A} {op : MemoryOp} (ho : Orderly s d payload) (hop : op ∈ payload.ops)
    (happly : applyOp eng lib d s payload = some (s', applied))
    (hlater : ∀ i, ∀ r ∈ s'.nodes, r.updatedAt < now i) : ∃ inv, inverseOf op applied = some inv ∧
      Undone eng lib s applied (applyInverse eng lib now s' inv) := by
  obtain ⟨hrec, hfits⟩ := records_applyOp ho happly
  have hsteps := undone_steps lib hrec hlater
  have hfit := hfits op hop
  cases op with
  | add | promoteFileCandidate | induceSchema =>
    obtain ⟨⟨id, hid⟩, hprior, hedges⟩ := hfit
    refine ⟨.archiveNode id, by simp [inverseOf, hid], ?_⟩
    simpa [steps, hid, hprior, hedges, applyInverses, applyInverse, Store.appendNodeRows] using hsteps
  | update | archive =>
    obtain ⟨hnone, hprior, hedges⟩ := hfit
    refine ⟨.restoreRows applied.priorRows, by simp [inverseOf, hprior], ?_⟩
    simpa [steps, hnone, hedges, applyInverses] using hsteps
  | invalidate => exact ⟨.multi (steps applied), rfl, by rwa [applyInverse]⟩
  | merge =>
    refine ⟨_, rfl, ?_⟩
    have hnone : applied.createdNodeId = none := hfit
    by_cases hedges : applied.edges = []
    · simpa [steps, hnone, hedges, applyInverses, applyInverse, Store.appendEdgeRows] using hsteps
    · simpa [steps, hnone, hedges, applyInverse] using hsteps
  | linkEntityCrossRealm | relationshipWrite =>
    obtain ⟨hnone, hprior, hedges⟩ := hfit
    refine ⟨.removeEdges applied.edges, by simp [inverseOf, hedges], ?_⟩
    simpa [steps, hnone, hprior, hedges, applyInverses, applyInverse, Store.appendNodeRows] using hsteps

end Gate

def exampleEngine : Engine ℕ ℚ where
  first := argmax Row.updatedAt
  isSome_first _ h := Option.isSome_iff_ne_none.2 (mt argmax_eq_none.1 h)
  first_spec _ _ h := ⟨argmax_mem h, fun _ hx => le_of_mem_argmax hx h⟩

def exampleLib : Lib ℕ ℚ Unit := ⟨fun _ _ => some fun _ => .null, fun _ => some [], Nat.repr⟩

def oneMemory : Store ℕ ℚ := ⟨[⟨"memory:1", 1, fun _ => .null⟩], []⟩

def draws : Draws ℕ := ⟨"memory:2", 2, 2, 2, true⟩

/-- A memory is archived, and the undo restores it. -/
theorem undo_apply_archive : ∃ s' applied inv,
    applyOp exampleEngine exampleLib draws oneMemory (.archive "memory:1") = some (s', applied) ∧
      inverseOf .archive applied = some inv ∧
      Undone exampleEngine exampleLib oneMemory applied (applyInverse exampleEngine exampleLib (fun _ => 3) s' inv) := by
  have ho : Orderly oneMemory draws (.archive "memory:1" : OpPayload Unit) :=
    ⟨by simp [oneMemory, draws], nofun, nofun⟩
  obtain ⟨inv, hinv, hundone⟩ := @undo_apply _ _ _ _ exampleEngine exampleLib draws oneMemory _ _ (fun _ => 3) _ _ ho
    (mem_singleton_self _) rfl fun _ r hr => by fin_cases hr <;> decide
  exact ⟨_, _, inv, rfl, hinv, hundone⟩

/-- **The edge of an undone link** is found as before. -/
theorem undone_link_visible : ∃ s' applied inv,
    applyOp exampleEngine exampleLib draws oneMemory (.link ⟨"memory:1", "memory:0", "RELATES_TO", "default", none⟩) =
      some (s', applied) ∧ inverseOf .relationshipWrite applied = some inv ∧
      neighbors (applyInverse exampleEngine exampleLib (fun _ => 3) s' inv) ["memory:1"] [] 10 ≠ [] :=
  ⟨_, _, _, rfl, rfl, nofun⟩

end MemoryGate
