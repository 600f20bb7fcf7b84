/-
**Exports of whole graphs.**

A request for the first page looks the graph up, counts its nodes and edges, and takes a laid-out
graph with those counts from the cache, or computes one: it reads the nodes, then the edges, and
puts them into the cache.
-/

import Pensieve.LayoutCache
import Pensieve.Rows
import Pensieve.Runs
import Pensieve.TenantScope

namespace GraphExport

open List
open Catalog (TenantId)
open Discover (Principal)
open Tenancy (defaultTenant)

/-! ### Graphs -/

structure GraphNode where
  id : Text
  rest : Text
  deriving DecidableEq

structure GraphRelationship where
  sourceId : Text
  targetId : Text
  rest : Text
  deriving DecidableEq

structure Item (A : Type) where
  tenant : TenantId
  database : Text
  value : A
  deriving DecidableEq

/-- The tables of a database that are nodes of the graph of schemas, and the references between them. -/
structure SchemaRow where
  tenant : TenantId
  database : Text
  nodes : List GraphNode
  edges : List GraphRelationship
  deriving DecidableEq

/-- What is stored: registrations of graphs with their tables, the rows of tables, one for each node and each edge, and the
databases. -/
structure Graphs where
  registrations : List ((TenantId × Text × Text) × (Text × Text))
  nodeTables : List ((TenantId × Text × Text) × List GraphNode)
  edgeTables : List ((TenantId × Text × Text) × List GraphRelationship)
  databases : List SchemaRow
  deriving DecidableEq

def schemaGraph : Text := "schema".toList

inductive Provider
  | schema (allowed : Option (List Text))
  | stored (database nodeTable edgeTable : Text)
  deriving DecidableEq

/-- `resolve`, under the default tenant. -/
def resolve (g : Graphs) (graph database : Text) (allowed : Option (List Text)) : Option Provider :=
  if graph = schemaGraph then some (.schema allowed)
  else (g.registrations.lookup (defaultTenant, database, graph)).map fun t => .stored database t.1 t.2

def Lists (allowed : Option (List Text)) (database : Text) : Prop := ∀ l, allowed = some l → database ∈ l

instance (allowed : Option (List Text)) (database : Text) : Decidable (Lists allowed database) :=
  match allowed with
  | none => isTrue fun _ h => by cases h
  | some l => decidable_of_iff (database ∈ l) ⟨fun h _ hl => Option.some.inj hl ▸ h, fun h => h l rfl⟩

def Graphs.spanned (g : Graphs) (allowed : Option (List Text)) (realm : Option Text) : List SchemaRow :=
  g.databases.filter fun d => d.tenant = defaultTenant ∧ Lists allowed d.database ∧ ∀ r ∈ realm, r = d.database

/-- `SchemaGraphProvider::build` -/
def Graphs.build (g : Graphs) (allowed : Option (List Text)) (realm : Option Text) :
    List (Item GraphNode) × List (Item GraphRelationship) :=
  ((g.spanned allowed realm).flatMap fun d => d.nodes.map fun n => ⟨d.tenant, d.database, n⟩,
    (g.spanned allowed realm).flatMap fun d => d.edges.map fun e => ⟨d.tenant, d.database, e⟩)

def exportFetchAll : ℕ := 2 ^ 32 - 1

/-- The first read of `overview`: the nodes, and the edges of the graph of schemas, which is read at once. -/
def readNodes (g : Graphs) (realm : Option Text) (limit : ℕ) :
    Provider → Option (List (Item GraphNode) × Option (List (Item GraphRelationship)))
  | .schema allowed => some ((g.build allowed realm).1.take limit, some (g.build allowed realm).2)
  | .stored database nodeTable _ =>
    (g.nodeTables.lookup (defaultTenant, database, nodeTable)).map fun rows =>
      ((rows.take limit).map fun n => ⟨defaultTenant, database, n⟩, none)

/-- The second read of `overview`. -/
def readEdges (g : Graphs) (limit : ℕ) (built : Option (List (Item GraphRelationship))) :
    Provider → Option (List (Item GraphRelationship))
  | .schema _ => built
  | .stored database _ edgeTable =>
    (g.edgeTables.lookup (defaultTenant, database, edgeTable)).map fun rows =>
      (rows.take (limit * 4)).map fun e => ⟨defaultTenant, database, e⟩

def kept (nodes : List (Item GraphNode)) (edges : List (Item GraphRelationship)) : List (Item GraphRelationship) :=
  edges.filter fun e => e.value.sourceId ∈ nodes.map (·.value.id) ∧ e.value.targetId ∈ nodes.map (·.value.id)

/-- `overview`, in one state. -/
def overview (g : Graphs) (realm : Option Text) (p : Provider) :
    Option (List (Item GraphNode) × List (Item GraphRelationship)) := do
  let (nodes, built) ← readNodes g realm exportFetchAll p
  let edges ← readEdges g exportFetchAll built p
  some (nodes, kept nodes edges)

/-- **The graph in one state**, as far as the allow-list lets it be seen. -/
def view (g : Graphs) (key : CacheKey) (allowed : Option (List Text)) :
    Option (List (Item GraphNode) × List (Item GraphRelationship)) := do
  let p ← resolve g key.graph key.database allowed
  overview g key.realm p

/-- The counts of `stats`: of nodes first, and of edges at once for the graph of schemas. -/
def countNodes (g : Graphs) (realm : Option Text) : Provider → Option (ℕ × Option ℕ)
  | .schema allowed => some ((g.build allowed realm).1.length, some (g.build allowed realm).2.length)
  | .stored database nodeTable _ =>
    (g.nodeTables.lookup (defaultTenant, database, nodeTable)).map fun rows => (rows.length, none)

def countEdges (g : Graphs) : Provider → Option ℕ
  | .schema _ => none
  | .stored database _ edgeTable =>
    (g.edgeTables.lookup (defaultTenant, database, edgeTable)).map List.length

/-! ### Requests -/

/-- Where a first request, or a computation in the background, stands. -/
inductive Stage
  | resolved
  | counted (nodes : ℕ)
  | counts (fingerprint : ℕ × ℕ)
  | missed (fingerprint : ℕ × ℕ)
  | started
  | nodesRead (nodes : List (Item GraphNode)) (built : Option (List (Item GraphRelationship)))
  | payload (nodes : List (Item GraphNode)) (edges : List (Item GraphRelationship))

structure Work where
  principal : Option Principal
  key : CacheKey
  provider : Provider
  pageSize : ℕ
  background : Bool
  stage : Stage

def allowedOf (principal : Option Principal) : Option (List Text) := principal.bind Principal.allowedDatabases

variable {P : Type}

/-- Nodes with positions of a type `P`. -/
abbrev Laid (P : Type) := LaidOutGraph (Item GraphNode × P) (Item GraphRelationship)

abbrev Page (P : Type) := GraphExportPage (Item GraphNode × P) (Item GraphRelationship)

/-- An export whose first page was answered: its layout, what was shown so far, and where it goes on. -/
structure Session (P : Type) where
  principal : Option Principal
  key : CacheKey
  laid : Laid P
  shown : List ((Item GraphNode × P) ⊕ Item GraphRelationship)
  cursor : Option Text

/-- The graphs now and in every state so far, the cache, the requests and computations under way, the exports, and all
pages that were answered. -/
structure World (P : Type) where
  graphs : Graphs
  past : List Graphs
  cache : CacheInner (Item GraphNode × P) (Item GraphRelationship)
  work : ℕ → Option Work
  sessions : ℕ → Option (Session P)
  served : List (Option Principal × Page P)

def noGraphs : Graphs := ⟨[], [], [], []⟩

def World.init : World P := ⟨noGraphs, [noGraphs], .empty, fun _ => none, fun _ => none, []⟩

structure Env (P : Type) where
  position : LayoutAlgorithm → List GraphNode → List GraphRelationship → Text → P
  layoutId : CacheKey → ℕ × ℕ → Text

inductive Action
  | change (g : Graphs)
  | request (i : ℕ) (principal : Option Principal) (key : CacheKey) (pageSize : ℕ)
  | countNodes (i : ℕ)
  | countEdges (i : ℕ)
  | lookup (i : ℕ)
  | compute (i : ℕ)
  | readNodes (i : ℕ)
  | readEdges (i : ℕ)
  | insert (i : ℕ)
  | fail (i : ℕ)
  | follow (i : ℕ) (pageSize : ℕ)
  | cursor (principal : Option Principal) (database text : Text) (pageSize : ℕ)

/-- `enforce_scope`, which lets the empty name of a database pass. -/
def enforceScope (principal : Option Principal) (database : Text) : Bool :=
  decide (database = []) || principal.all fun p => p.allows database

def clampPageSize (n : ℕ) : ℕ := max 100 (min n 50000)

def syncComputeMaxNodes : ℕ := 20000

def World.setStage (w : World P) (i : ℕ) (x : Work) (stage : Stage) : World P :=
  { w with work := Function.update w.work i (some { x with stage := stage }) }

def World.dropWork (w : World P) (i : ℕ) : World P := { w with work := Function.update w.work i none }

def World.serve (w : World P) (principal : Option Principal) (page : Page P) : World P :=
  { w with served := (principal, page) :: w.served }

def World.answer (w : World P) (i : ℕ) (x : Work) (laid : Laid P) : World P :=
  let page := slicePage laid 'n' 0 x.pageSize
  { w.serve x.principal page with
    work := Function.update w.work i none
    sessions := Function.update w.sessions i (some ⟨x.principal, x.key, laid, page.items, page.nextCursor⟩) }

section Step

variable (env : Env P)

def computingPage (key : CacheKey) (fingerprint : ℕ × ℕ) : Page P :=
  ⟨"computing".toList, env.layoutId key fingerprint, fingerprint.1, fingerprint.2, [], [], none⟩

/-- The closure `compute` of `export`. -/
def layOut (x : Work) (nodes : List (Item GraphNode)) (edges : List (Item GraphRelationship)) : Laid P :=
  let fp := (nodes.length, edges.length)
  let position := env.position x.key.algorithm (nodes.map Item.value) (edges.map Item.value)
  { layoutId := env.layoutId x.key fp
    fingerprint := fp
    nodes := nodes.map fun n => (n, position n.value.id)
    edges := edges
    allowed := allowedOf x.principal }

/-- **One step**. -/
def step (w : World P) : Action → Option (World P)
  | .change g => some { w with graphs := g, past := g :: w.past }
  | .request i principal key pageSize =>
    if (w.work i).isSome ∨ (w.sessions i).isSome ∨ enforceScope principal key.database = false then none
    else (resolve w.graphs key.graph key.database (allowedOf principal)).map fun provider =>
      let x : Work := ⟨principal, key, provider, clampPageSize pageSize, false, .resolved⟩
      { w with work := Function.update w.work i (some x) }
  | .countNodes i =>
    match w.work i with
    | some x =>
      match x.stage with
      | .resolved =>
        match countNodes w.graphs x.key.realm x.provider with
        | some (nodes, some edges) => some (w.setStage i x (.counts (nodes, edges)))
        | some (nodes, none) => some (w.setStage i x (.counted nodes))
        | none => some (w.dropWork i)
      | _ => none
    | none => none
  | .countEdges i =>
    match w.work i with
    | some x =>
      match x.stage with
      | .counted nodes =>
        match countEdges w.graphs x.provider with
        | some edges => some (w.setStage i x (.counts (nodes, edges)))
        | none => some (w.dropWork i)
      | _ => none
    | none => none
  | .lookup i =>
    match w.work i with
    | some x =>
      match x.stage with
      | .counts fp =>
        let (state, cache) := w.cache.getFresh x.key fp
        match state with
        | some (.ready laid) => some ({ w with cache := cache }.answer i x laid)
        | some .computing =>
          let w' := { w with cache := cache }.serve x.principal (computingPage env x.key fp)
          some (w'.dropWork i)
        | none => some ({ w with cache := cache }.setStage i x (.missed fp))
      | _ => none
    | none => none
  | .compute i =>
    match w.work i with
    | some x =>
      match x.stage with
      | .missed fp =>
        if fp.1 ≤ syncComputeMaxNodes then some (w.setStage i x .started)
        else
          let (first, cache) := w.cache.beginCompute x.key
          let w' := { w with cache := cache }.serve x.principal (computingPage env x.key fp)
          if first then some (w'.setStage i { x with background := true } .started) else some (w'.dropWork i)
      | _ => none
    | none => none
  | .readNodes i =>
    match w.work i with
    | some x =>
      match x.stage with
      | .started => (readNodes w.graphs x.key.realm exportFetchAll x.provider).map fun (nodes, built) =>
        w.setStage i x (.nodesRead nodes built)
      | _ => none
    | none => none
  | .readEdges i =>
    match w.work i with
    | some x =>
      match x.stage with
      | .nodesRead nodes built => (readEdges w.graphs exportFetchAll built x.provider).map fun edges =>
        w.setStage i x (.payload nodes (kept nodes edges))
      | _ => none
    | none => none
  | .insert i =>
    match w.work i with
    | some x =>
      match x.stage with
      | .payload nodes edges =>
        let laid := layOut env x nodes edges
        let w' := { w with cache := w.cache.insertReady x.key laid }
        if x.background then some (w'.dropWork i) else some (w'.answer i x laid)
      | _ => none
    | none => none
  | .fail i =>
    match w.work i with
    | some x =>
      let w' := w.dropWork i
      -- the guard of a task in the background takes its mark back
      if x.background then some { w' with cache := w.cache.abortCompute x.key } else some w'
    | none => none
  | .follow i pageSize =>
    match w.sessions i with
    | some s =>
      match s.cursor with
      | some text =>
        let found := do
          let (id, kind, offset) ← parseCursor text
          let laid ← w.cache.byId id
          some (slicePage laid kind offset (clampPageSize pageSize))
        match found with
        | some page =>
          let s' := { s with shown := s.shown ++ page.items, cursor := page.nextCursor }
          some { w.serve s.principal page with sessions := Function.update w.sessions i (some s') }
        -- refused
        | none => some { w with sessions := Function.update w.sessions i none }
      | none => none
    | none => none
  | .cursor principal database text pageSize =>
    if enforceScope principal database = false then none
    else
      (do
        let (id, kind, offset) ← parseCursor text
        let laid ← w.cache.byId id
        some (w.serve principal (slicePage laid kind offset (clampPageSize pageSize))))

/-! ### The law and the condition -/

def strip : (Item GraphNode × P) ⊕ Item GraphRelationship → Item GraphNode ⊕ Item GraphRelationship :=
  Sum.map Prod.fst id

/-- **What the pages and the cache are to keep to**, for the tenant whose data a principal may get. -/
structure Law (home : Principal → TenantId) (w : World P) : Prop where
  whole : ∀ i s, w.sessions i = some s → s.cursor = none → ∃ g ∈ w.past, ∃ nodes edges,
    view g s.key (allowedOf s.principal) = some (nodes, edges) ∧ s.shown.map strip = nodes.map .inl ++ edges.map .inr
  nodes : ∀ p page, (some p, page) ∈ w.served → ∀ n ∈ page.nodes, n.1.tenant = home p ∧ p.allows n.1.database = true
  edges : ∀ p page, (some p, page) ∈ w.served → ∀ e ∈ page.edges, e.tenant = home p ∧ p.allows e.database = true
  cache : w.cache.Kept

/-- The layout of a key is for the request: one of a database that the principal may see, or, of the graph of schemas, one
that was computed for the same allow-list. -/
def Fits (principal : Option Principal) (key : CacheKey) (laid : Laid P) : Prop :=
  if key.graph = schemaGraph then laid.allowed = allowedOf principal
  else ∀ p, principal = some p → p.allows key.database = true

/-- **The condition on the steps**: no graph is registered in a database with an empty name; a graph does not change, and
its registration neither, between the reads of its nodes and of its edges; a layout of the graph of schemas is answered from
the cache only for the allow-list that it was computed for, and a cursor only for a layout of a database that the principal
may see; a key is not computed in the background while it is ready; and a layout is not inserted for a key that is ready
under another id, nor under the id of another key that is ready, nor under that of an export that goes on with another
layout. -/
def Heeds (w : World P) : Action → Prop
  | .change g => ∀ graph, g.registrations.lookup (defaultTenant, [], graph) = none
  | .lookup i => ∀ x laid, w.work i = some x → x.stage = .counts laid.fingerprint →
      w.cache.map x.key = some (.ready laid) → x.key.graph = schemaGraph → laid.allowed = allowedOf x.principal
  | .compute i => ∀ x fp laid, w.work i = some x → x.stage = .missed fp → syncComputeMaxNodes < fp.1 →
      w.cache.map x.key ≠ some (.ready laid)
  | .readNodes i => ∀ x, w.work i = some x →
      resolve w.graphs x.key.graph x.key.database (allowedOf x.principal) = some x.provider
  | .readEdges i => ∀ x nodes, w.work i = some x → x.stage = .nodesRead nodes none →
      resolve w.graphs x.key.graph x.key.database (allowedOf x.principal) = some x.provider ∧
        readNodes w.graphs x.key.realm exportFetchAll x.provider = some (nodes, none)
  | .insert i => ∀ x nodes edges, w.work i = some x → x.stage = .payload nodes edges →
      (∀ key laid, w.cache.map key = some (.ready laid) →
        (key = x.key ↔ laid.layoutId = env.layoutId x.key (nodes.length, edges.length))) ∧
      ∀ j s, w.sessions j = some s → s.cursor ≠ none →
        s.laid.layoutId = env.layoutId x.key (nodes.length, edges.length) →
        s.laid.nodes = (layOut env x nodes edges).nodes ∧ s.laid.edges = (layOut env x nodes edges).edges
  | .cursor principal _ text _ => ∀ c laid key, parseCursor text = some c → w.cache.byId c.1 = some laid →
      w.cache.map key = some (.ready laid) → Fits principal key laid
  | _ => True

end Step

/-! ### What a graph in one state is made of -/

def Within {A : Type} (key : CacheKey) (allowed : Option (List Text)) (x : Item A) : Prop :=
  x.tenant = defaultTenant ∧ if key.graph = schemaGraph then Lists allowed x.database else x.database = key.database

theorem mem_spanned {g : Graphs} {allowed : Option (List Text)} {realm : Option Text} {d : SchemaRow}
    (h : d ∈ g.spanned allowed realm) : d.tenant = defaultTenant ∧ Lists allowed d.database := by
  obtain ⟨-, hd⟩ := mem_filter.1 h
  have hd := of_decide_eq_true hd
  exact ⟨hd.1, hd.2.1⟩

variable {nodes : List (Item GraphNode)} {edges : List (Item GraphRelationship)}

theorem mem_kept {e : Item GraphRelationship}
    (h : e ∈ kept nodes edges) : e ∈ edges := mem_of_mem_filter h

variable {key : CacheKey}

theorem view_scope {g : Graphs} {allowed : Option (List Text)} {nodes : List (Item GraphNode)}
    {edges : List (Item GraphRelationship)} (h : view g key allowed = some (nodes, edges)) :
    (∀ n ∈ nodes, Within key allowed n) ∧ ∀ e ∈ edges, Within key allowed e := by
  obtain ⟨p, hp, h⟩ := Option.bind_eq_some_iff.1 h
  obtain ⟨⟨ns, built⟩, hns, h⟩ := Option.bind_eq_some_iff.1 h
  obtain ⟨es, hes, h⟩ := Option.bind_eq_some_iff.1 h
  obtain ⟨rfl, rfl⟩ := Prod.mk.inj (Option.some.inj h)
  unfold resolve at hp
  split at hp
  · rename_i hschema
    cases hp
    cases hns
    cases hes
    constructor
    · intro n hn
      obtain ⟨d, hd, hn⟩ := mem_flatMap.1 (mem_of_mem_take hn)
      obtain ⟨m, -, rfl⟩ := mem_map.1 hn
      obtain ⟨htenant, hallowed⟩ := mem_spanned hd
      exact ⟨htenant, by rwa [if_pos hschema]⟩
    · intro e he
      obtain ⟨d, hd, he⟩ := mem_flatMap.1 (mem_kept he)
      obtain ⟨m, -, rfl⟩ := mem_map.1 he
      obtain ⟨htenant, hallowed⟩ := mem_spanned hd
      exact ⟨htenant, by rwa [if_pos hschema]⟩
  · rename_i hstored
    obtain ⟨tables, -, rfl⟩ := Option.map_eq_some_iff.1 hp
    obtain ⟨rows, -, hns⟩ := Option.map_eq_some_iff.1 hns
    obtain ⟨rfl, -⟩ := Prod.mk.inj hns
    obtain ⟨rows', -, rfl⟩ := Option.map_eq_some_iff.1 hes
    constructor
    · intro n hn
      obtain ⟨m, -, rfl⟩ := mem_map.1 hn
      exact ⟨rfl, by rw [if_neg hstored]⟩
    · intro e he
      obtain ⟨m, -, rfl⟩ := mem_map.1 (mem_kept he)
      exact ⟨rfl, by rw [if_neg hstored]⟩

theorem view_stored {g : Graphs} (hstored : key.graph ≠ schemaGraph)
    (allowed allowed' : Option (List Text)) : view g key allowed = view g key allowed' := by
  unfold view resolve
  rw [if_neg hstored, if_neg hstored]

theorem allows_iff {p : Principal} {database : Text} : p.allows database = true ↔ Lists p.allowedDatabases database := by
  unfold Principal.allows Lists
  cases p.allowedDatabases with
  | none | some l => simp

/-! ### The invariant -/

def Sound (past : List Graphs) (key : CacheKey) (l : Laid P) : Prop :=
  ∃ g ∈ past, view g key l.allowed = some (l.nodes.map Prod.fst, l.edges)

theorem Sound.mono {past past' : List Graphs} (hsub : ∀ g ∈ past, g ∈ past') {l : Laid P}
    (h : Sound past key l) : Sound past' key l := by
  obtain ⟨g, hg, hview⟩ := h
  exact ⟨g, hsub g hg, hview⟩

/-- The data of a page is that of the default tenant and of allowed databases. -/
structure PageScoped (principal : Option Principal) (page : Page P) : Prop where
  nodes : ∀ p, principal = some p → ∀ n ∈ page.nodes, n.1.tenant = defaultTenant ∧ p.allows n.1.database = true
  edges : ∀ p, principal = some p → ∀ e ∈ page.edges, e.tenant = defaultTenant ∧ p.allows e.database = true

variable {principal : Option Principal}

theorem Fits.allows {A : Type} {l : Laid P} (h : Fits principal key l) {x : Item A}
    (hx : Within key l.allowed x) {p : Principal}
    (hp : principal = some p) : p.allows x.database = true := by
  obtain ⟨-, hx⟩ := hx
  unfold Fits at h
  split at h
  · rename_i hschema
    rw [if_pos hschema, h, hp] at hx
    exact allows_iff.2 hx
  · rename_i hstored
    rw [if_neg hstored] at hx
    rw [hx]
    exact h p hp

theorem Sound.pageScoped {past : List Graphs} {l : Laid P} (h : Sound past key l)
    (hfits : Fits principal key l) (kind : Char) (offset pageSize : ℕ) :
    PageScoped principal (slicePage l kind offset pageSize) := by
  obtain ⟨g, -, hview⟩ := h
  obtain ⟨hnodes, hedges⟩ := view_scope hview
  obtain ⟨hmemNodes, hmemEdges⟩ := mem_of_mem_slicePage l kind offset pageSize
  constructor
  · intro p hp n hn
    have hwithin := hnodes n.1 (mem_map_of_mem (hmemNodes n hn))
    exact ⟨hwithin.1, hfits.allows hwithin hp⟩
  · intro p hp e he
    have hwithin := hedges e (hmemEdges e he)
    exact ⟨hwithin.1, hfits.allows hwithin hp⟩

def StageSound (past : List Graphs) (x : Work) : Prop :=
  match x.stage with
  | .nodesRead nodes (some edges) => (∃ allowed, x.provider = .schema allowed) ∧
      ∃ g ∈ past, view g x.key (allowedOf x.principal) = some (nodes, kept nodes edges)
  | .payload nodes edges => ∃ g ∈ past, view g x.key (allowedOf x.principal) = some (nodes, edges)
  | _ => True

structure WorkOk (past : List Graphs) (x : Work) : Prop where
  entered : x.key.graph ≠ schemaGraph → ∀ p, x.principal = some p → p.allows x.key.database = true
  read : StageSound past x

structure SessionOk (past : List Graphs) (cache : CacheInner (Item GraphNode × P) (Item GraphRelationship)) (s : Session P) :
    Prop where
  sound : Sound past s.key s.laid
  fits : Fits s.principal s.key s.laid
  follows : Follows s.laid s.shown s.cursor
  same : s.cursor ≠ none → ∀ l, cache.byId s.laid.layoutId = some l → l.nodes = s.laid.nodes ∧ l.edges = s.laid.edges

structure Inv (w : World P) : Prop where
  now : w.graphs ∈ w.past
  named : ∀ graph, w.graphs.registrations.lookup (defaultTenant, [], graph) = none
  cache : w.cache.Kept
  ids : ∀ key key' l l', w.cache.map key = some (.ready l) → w.cache.map key' = some (.ready l') →
    l.layoutId = l'.layoutId → key = key'
  sound : ∀ key l, w.cache.map key = some (.ready l) → Sound w.past key l
  work : ∀ i x, w.work i = some x → WorkOk w.past x
  sessions : ∀ i s, w.sessions i = some s → SessionOk w.past w.cache s
  served : ∀ principal page, (principal, page) ∈ w.served → PageScoped principal page

theorem Inv.init : Inv (World.init : World P) where
  now := mem_singleton.2 rfl
  named graph := rfl
  cache := .empty
  ids key key' l l' h := by cases h
  sound key l h := by cases h
  work i x h := by cases h
  sessions i s h := by cases h
  served principal page h := by cases h

section Inv

variable {env : Env P} {w w' : World P} {i : ℕ} {x : Work}

theorem Inv.byId_of_ready (h : Inv w) {key : CacheKey} {l l' : Laid P} (hl : w.cache.map key = some (.ready l))
    (hl' : w.cache.byId l.layoutId = some l') : l' = l := by
  obtain ⟨hid, key', hkey'⟩ := h.cache.points _ _ hl'
  obtain rfl := h.ids key key' l l' hl hkey' hid.symm
  rw [hl] at hkey'
  cases hkey'
  rfl

theorem of_update {V : Type} {f : ℕ → Option V} {i j : ℕ} {v : Option V} {u : V} (h : Function.update f i v j = some u) :
    (j = i ∧ v = some u) ∨ f j = some u := by
  by_cases hj : j = i
  · rw [hj, Function.update_self] at h
    exact .inl ⟨hj, h⟩
  · rw [Function.update_of_ne hj] at h
    exact .inr h

theorem Inv.putWork (h : Inv w) (i : ℕ) {v : Option Work} (hv : ∀ x, v = some x → WorkOk w.past x) :
    Inv { w with work := Function.update w.work i v } :=
  { h with
    work := fun j x hx => by
      rcases of_update hx with ⟨-, heq⟩ | hx
      · exact hv x heq
      · exact h.work j x hx }

theorem Inv.dropWork (h : Inv w) (i : ℕ) : Inv (w.dropWork i) := h.putWork i fun x hx => by cases hx

theorem Inv.setStage (h : Inv w) (i : ℕ) (x : Work) {stage : Stage}
    (hentered : x.key.graph ≠ schemaGraph → ∀ p, x.principal = some p → p.allows x.key.database = true)
    (hread : StageSound w.past { x with stage := stage }) : Inv (w.setStage i x stage) :=
  h.putWork i fun y hy => by
    cases hy
    exact ⟨hentered, hread⟩

theorem Inv.serve (h : Inv w) {page : Page P} (hpage : PageScoped principal page) : Inv (w.serve principal page) :=
  { h with
    served := fun principal' page' hmem => by
      rcases mem_cons.1 hmem with heq | hmem
      · cases heq
        exact hpage
      · exact h.served principal' page' hmem }

theorem pageScoped_computing (env : Env P) (principal : Option Principal) (key : CacheKey) (fingerprint : ℕ × ℕ) :
    PageScoped principal (computingPage env key fingerprint) :=
  ⟨fun _ _ _ hn => absurd hn not_mem_nil, fun _ _ _ he => absurd he not_mem_nil⟩

theorem Inv.putSession (h : Inv w) (i : ℕ) {v : Option (Session P)} (hv : ∀ s, v = some s → SessionOk w.past w.cache s) :
    Inv { w with sessions := Function.update w.sessions i v } :=
  { h with
    sessions := fun j s hs => by
      rcases of_update hs with ⟨-, heq⟩ | hs
      · exact hv s heq
      · exact h.sessions j s hs }

theorem Inv.forget (h : Inv w) {cache : CacheInner (Item GraphNode × P) (Item GraphRelationship)} (hkept : cache.Kept)
    (hle : cache.Le w.cache) : Inv { w with cache := cache } :=
  { h with
    cache := hkept
    ids := fun key key' l l' hl hl' => h.ids key key' l l' (hle.ready key l hl) (hle.ready key' l' hl')
    sound := fun key l hl => h.sound key l (hle.ready key l hl)
    sessions := fun i s hs =>
      { h.sessions i s hs with
        same := fun hcursor l hl => (h.sessions i s hs).same hcursor l (hle.byId _ l hl) } }

variable {laid : Laid P}

theorem Inv.answer (h : Inv w) (i : ℕ) (hsound : Sound w.past x.key laid) (hfits : Fits x.principal x.key laid)
    (hsame : ∀ l, w.cache.byId laid.layoutId = some l → l.nodes = laid.nodes ∧ l.edges = laid.edges) :
    Inv (w.answer i x laid) := by
  have hserved := h.serve (hsound.pageScoped hfits 'n' 0 x.pageSize)
  have hworked := hserved.dropWork i
  refine hworked.putSession i fun s hs => ?_
  cases hs
  exact ⟨hsound, hfits, Follows.first laid x.pageSize, fun _ => hsame⟩

theorem Inv.change (h : Inv w) {g : Graphs} (hnamed : ∀ graph, g.registrations.lookup (defaultTenant, [], graph) = none) :
    Inv { w with graphs := g, past := g :: w.past } := by
  have hsub : ∀ g' ∈ w.past, g' ∈ g :: w.past := fun _ hg' => mem_cons_of_mem g hg'
  exact
    { h with
      now := mem_cons_self
      named := hnamed
      sound := fun key l hl => (h.sound key l hl).mono hsub
      work := fun i x hx => by
        obtain ⟨hentered, hread⟩ := h.work i x hx
        refine ⟨hentered, ?_⟩
        unfold StageSound at hread ⊢
        dsimp only at hread ⊢
        split at hread
        · obtain ⟨hprovider, g', hg', hview⟩ := hread
          exact ⟨hprovider, g', hsub g' hg', hview⟩
        · obtain ⟨g', hg', hview⟩ := hread
          exact ⟨g', hsub g' hg', hview⟩
        · trivial
      sessions := fun i s hs => { h.sessions i s hs with sound := (h.sessions i s hs).sound.mono hsub } }

theorem Inv.insertReady (h : Inv w) (hsound : Sound w.past x.key laid)
    (hready : ∀ key l, w.cache.map key = some (.ready l) → (key = x.key ↔ l.layoutId = laid.layoutId))
    (hsessions : ∀ j s, w.sessions j = some s → s.cursor ≠ none → s.laid.layoutId = laid.layoutId → s.laid.nodes = laid.nodes ∧ s.laid.edges = laid.edges) :
    Inv { w with cache := w.cache.insertReady x.key laid } := by
  obtain ⟨hmap, hbyId⟩ := w.cache.insertReady_le x.key laid
  exact
    { h with
      cache := h.cache.insertReady fun l hl => (hready x.key l hl).1 rfl
      ids := fun key key' l l' hl hl' hid => by
        rcases hmap key l hl with ⟨rfl, rfl⟩ | ⟨-, hold⟩
        · rcases hmap key' l' hl' with ⟨rfl, -⟩ | ⟨-, hold'⟩
          · rfl
          · exact ((hready key' l' hold').2 hid.symm).symm
        · rcases hmap key' l' hl' with ⟨rfl, rfl⟩ | ⟨-, hold'⟩
          · exact (hready key l hold).2 hid
          · exact h.ids key key' l l' hold hold' hid
      sound := fun key l hl => by
        rcases hmap key l hl with ⟨rfl, rfl⟩ | ⟨-, hl⟩
        · exact hsound
        · exact h.sound key l hl
      sessions := fun j s hs =>
        { h.sessions j s hs with
          same := fun hcursor l hl => by
            rcases hbyId _ l hl with ⟨hid, rfl⟩ | ⟨-, hl⟩
            · obtain ⟨hnodes, hedges⟩ := hsessions j s hs hcursor hid
              exact ⟨hnodes.symm, hedges.symm⟩
            · exact (h.sessions j s hs).same hcursor l hl } }

theorem Inv.follow (h : Inv w) {s : Session P} {text id : Text} {kind : Char} {offset pageSize : ℕ}
    (hs : w.sessions i = some s) (hcursor : s.cursor = some text)
    (hparse : parseCursor text = some (id, kind, offset)) (hlaid : w.cache.byId id = some laid) :
    PageScoped s.principal (slicePage laid kind offset pageSize) ∧ SessionOk w.past w.cache
        { s with
          shown := s.shown ++ (slicePage laid kind offset pageSize).items
          cursor := (slicePage laid kind offset pageSize).nextCursor } := by
  obtain ⟨hsound, hfits, hfollows, hsame⟩ := h.sessions i s hs
  rw [hcursor] at hfollows
  obtain ⟨rfl, hnext⟩ := hfollows.next hparse pageSize
  have hne : s.cursor ≠ none := by
    rw [hcursor]
    exact Option.some_ne_none text
  obtain ⟨hnodes, hedges⟩ := hsame hne laid hlaid
  have hid := (h.cache.points _ _ hlaid).1
  rw [slicePage_congr hid hnodes hedges]
  exact ⟨hsound.pageScoped hfits kind offset pageSize, hsound, hfits, hnext, fun _ => hsame hne⟩

/-! #### Steps -/

theorem WorkOk.fits (h : WorkOk w.past x)
    (hallowed : x.key.graph = schemaGraph → laid.allowed = allowedOf x.principal) : Fits x.principal x.key laid := by
  unfold Fits
  split
  · rename_i hschema
    exact hallowed hschema
  · rename_i hstored
    exact h.entered hstored

theorem sound_layOut {past : List Graphs}
    (h : ∃ g ∈ past, view g x.key (allowedOf x.principal) = some (nodes, edges)) :
    Sound past x.key (layOut env x nodes edges) := by
  obtain ⟨g, hg, hview⟩ := h
  refine ⟨g, hg, ?_⟩
  have hnodes : (layOut env x nodes edges).nodes.map Prod.fst = nodes := by
    dsimp only [layOut]
    rw [map_map]
    exact map_id nodes
  rw [hnodes]
  exact hview

theorem stageSound_readNodes (h : w.graphs ∈ w.past)
    (hresolve : resolve w.graphs x.key.graph x.key.database (allowedOf x.principal) = some x.provider) {built : Option (List (Item GraphRelationship))}
    (hread : readNodes w.graphs x.key.realm exportFetchAll x.provider = some (nodes, built)) :
    StageSound w.past { x with stage := .nodesRead nodes built } := by
  cases built with
  | none => trivial
  | some edges =>
    have hschema : ∃ allowed, x.provider = .schema allowed := by
      cases hprovider : x.provider with
      | schema allowed => exact ⟨allowed, rfl⟩
      | stored database nodeTable edgeTable =>
        rw [hprovider] at hread
        obtain ⟨rows, -, hrows⟩ := Option.map_eq_some_iff.1 hread
        cases hrows
    refine ⟨hschema, w.graphs, h, ?_⟩
    obtain ⟨allowed, hprovider⟩ := hschema
    have hedges : readEdges w.graphs exportFetchAll (some edges) x.provider = some edges := by rw [hprovider, readEdges]
    exact Option.bind_eq_some_iff.2 ⟨_, hresolve, Option.bind_eq_some_iff.2 ⟨_, hread,
      Option.bind_eq_some_iff.2 ⟨edges, hedges, rfl⟩⟩⟩

theorem stageSound_readEdges (h : Inv w)
    {built : Option (List (Item GraphRelationship))}
    (hx : StageSound w.past x) (hstage : x.stage = .nodesRead nodes built)
    (hnow : built = none → resolve w.graphs x.key.graph x.key.database (allowedOf x.principal) = some x.provider ∧
      readNodes w.graphs x.key.realm exportFetchAll x.provider = some (nodes, none))
    (hread : readEdges w.graphs exportFetchAll built x.provider = some edges) :
    StageSound w.past { x with stage := .payload nodes (kept nodes edges) } := by
  cases built with
  | none =>
    obtain ⟨hresolve, hnodes⟩ := hnow rfl
    refine ⟨w.graphs, h.now, ?_⟩
    exact Option.bind_eq_some_iff.2 ⟨_, hresolve, Option.bind_eq_some_iff.2 ⟨_, hnodes,
      Option.bind_eq_some_iff.2 ⟨edges, hread, rfl⟩⟩⟩
  | some es =>
    unfold StageSound at hx
    rw [hstage] at hx
    obtain ⟨⟨allowed, hprovider⟩, hview⟩ := hx
    rw [hprovider] at hread
    cases hread
    exact hview

theorem Inv.step {a : Action} (h : Inv w) (hheeds : Heeds env w a) (hstep : step env w a = some w') : Inv w' := by
  cases a with
  | change g =>
    cases hstep
    exact h.change hheeds
  | request i principal key pageSize =>
    simp only [GraphExport.step] at hstep
    split at hstep
    · cases hstep
    · rename_i hfree
      obtain ⟨provider, hprovider, rfl⟩ := Option.map_eq_some_iff.1 hstep
      rw [not_or, not_or] at hfree
      refine h.putWork i fun x hx => ?_
      cases hx
      refine ⟨fun hstored p hp => ?_, trivial⟩
      -- a graph that is found is not in a database without a name
      have hscope : enforceScope principal key.database = true := by simpa using hfree.2.2
      dsimp only at hstored hp ⊢
      unfold resolve at hprovider
      rw [if_neg hstored] at hprovider
      obtain ⟨tables, htables, -⟩ := Option.map_eq_some_iff.1 hprovider
      have hname : key.database ≠ [] := by
        intro hnil
        rw [hnil, h.named] at htables
        cases htables
      rcases Bool.or_eq_true_iff.1 hscope with hnil | hallowed
      · exact absurd (of_decide_eq_true hnil) hname
      · rw [hp] at hallowed
        exact hallowed
  | countNodes i =>
    simp only [GraphExport.step] at hstep
    split at hstep
    · rename_i x hx
      have hentered := (h.work i x hx).entered
      split at hstep
      · split at hstep
        · cases hstep
          exact h.setStage i x hentered trivial
        · cases hstep
          exact h.setStage i x hentered trivial
        · cases hstep
          exact h.dropWork i
      · cases hstep
    · cases hstep
  | countEdges i =>
    simp only [GraphExport.step] at hstep
    split at hstep
    · rename_i x hx
      split at hstep
      · split at hstep
        · cases hstep
          exact h.setStage i x (h.work i x hx).entered trivial
        · cases hstep
          exact h.dropWork i
      · cases hstep
    · cases hstep
  | lookup i =>
    simp only [GraphExport.step] at hstep
    split at hstep
    · rename_i x hx
      split at hstep
      · rename_i fp hstage
        cases hfresh : w.cache.getFresh x.key fp with
        | mk state cache =>
          have hforget : Inv { w with cache := cache } := by
            have hcache : cache = (w.cache.getFresh x.key fp).2 := by rw [hfresh]
            rw [hcache]
            exact h.forget (h.cache.getFresh x.key fp) (.getFresh x.key fp)
          rw [hfresh] at hstep
          dsimp only at hstep
          split at hstep
          · rename_i laid
            cases hstep
            obtain ⟨hready, hfp⟩ := CacheInner.getFresh_ready hfresh
            have hallowed := hheeds x laid hx (hfp ▸ hstage) hready
            refine hforget.answer i (h.sound x.key laid hready) ((h.work i x hx).fits hallowed) fun l hl => ?_
            have hle : cache.Le w.cache := by
              have hcache : cache = (w.cache.getFresh x.key fp).2 := by rw [hfresh]
              rw [hcache]
              exact .getFresh x.key fp
            rw [h.byId_of_ready hready (hle.byId _ l hl)]
            exact ⟨rfl, rfl⟩
          · cases hstep
            exact (hforget.serve (pageScoped_computing env x.principal x.key fp)).dropWork i
          · cases hstep
            exact hforget.setStage i x (h.work i x hx).entered trivial
      · cases hstep
    · cases hstep
  | compute i =>
    simp only [GraphExport.step] at hstep
    split at hstep
    · rename_i x hx
      have hentered := (h.work i x hx).entered
      split at hstep
      · rename_i fp hstage
        split at hstep
        · cases hstep
          exact h.setStage i x hentered trivial
        · rename_i hlarge
          have hnot : ∀ l, w.cache.map x.key ≠ some (.ready l) := fun l =>
            hheeds x fp l hx hstage (Nat.lt_of_not_le hlarge)
          have hserved := (h.forget (h.cache.beginCompute hnot) (.beginCompute x.key)).serve
            (pageScoped_computing env x.principal x.key fp)
          split at hstep
          · cases hstep
            exact hserved.setStage i _ hentered trivial
          · cases hstep
            exact hserved.dropWork i
      · cases hstep
    · cases hstep
  | readNodes i =>
    simp only [GraphExport.step] at hstep
    split at hstep
    · rename_i x hx
      split at hstep
      · obtain ⟨⟨nodes, built⟩, hread, rfl⟩ := Option.map_eq_some_iff.1 hstep
        exact h.setStage i x (h.work i x hx).entered (stageSound_readNodes h.now (hheeds x hx) hread)
      · cases hstep
    · cases hstep
  | readEdges i =>
    simp only [GraphExport.step] at hstep
    split at hstep
    · rename_i x hx
      split at hstep
      · rename_i nodes built hstage
        obtain ⟨edges, hread, rfl⟩ := Option.map_eq_some_iff.1 hstep
        obtain ⟨hentered, hsound⟩ := h.work i x hx
        refine h.setStage i x hentered (stageSound_readEdges h hsound hstage (fun hnone => ?_) hread)
        rw [hnone] at hstage
        exact hheeds x nodes hx hstage
      · cases hstep
    · cases hstep
  | insert i =>
    simp only [GraphExport.step] at hstep
    split at hstep
    · rename_i x hx
      split at hstep
      · rename_i nodes edges hstage
        obtain ⟨hready, hsessions⟩ := hheeds x nodes edges hx hstage
        have hwork := h.work i x hx
        have hread := hwork.read
        unfold StageSound at hread
        rw [hstage] at hread
        have hsound : Sound w.past x.key (layOut env x nodes edges) := sound_layOut hread
        have hinserted : Inv { w with cache := w.cache.insertReady x.key (layOut env x nodes edges) } :=
          h.insertReady hsound hready hsessions
        split at hstep
        · cases hstep
          exact hinserted.dropWork i
        · cases hstep
          refine hinserted.answer i hsound (hwork.fits fun _ => rfl) fun l hl => ?_
          rcases (w.cache.insertReady_le x.key (layOut env x nodes edges)).2 _ l hl with ⟨-, rfl⟩ | ⟨hne, -⟩
          · exact ⟨rfl, rfl⟩
          · exact absurd rfl hne
      · cases hstep
    · cases hstep
  | fail i =>
    simp only [GraphExport.step] at hstep
    split at hstep
    · rename_i x hx
      split at hstep
      · cases hstep
        exact (h.dropWork i).forget (h.cache.abortCompute x.key) (.abortCompute x.key)
      · cases hstep
        exact h.dropWork i
    · cases hstep
  | follow i pageSize =>
    simp only [GraphExport.step] at hstep
    split at hstep
    · rename_i s hs
      split at hstep
      · rename_i text hcursor
        split at hstep
        · rename_i page hfound
          cases hstep
          obtain ⟨⟨id, kind, offset⟩, hparse, hfound⟩ := Option.bind_eq_some_iff.1 hfound
          obtain ⟨laid, hlaid, hpage⟩ := Option.bind_eq_some_iff.1 hfound
          cases hpage
          obtain ⟨hscoped, hok⟩ := h.follow hs hcursor hparse hlaid
          refine (h.serve hscoped).putSession i fun s' hs' => ?_
          cases hs'
          exact hok
        · cases hstep
          exact h.putSession i fun s' hs' => by cases hs'
      · cases hstep
    · cases hstep
  | cursor principal database text pageSize =>
    simp only [GraphExport.step] at hstep
    split at hstep
    · cases hstep
    · obtain ⟨⟨id, kind, offset⟩, hparse, hfound⟩ := Option.bind_eq_some_iff.1 hstep
      obtain ⟨laid, hlaid, hserved⟩ := Option.bind_eq_some_iff.1 hfound
      cases hserved
      obtain ⟨-, key, hkey⟩ := h.cache.points _ _ hlaid
      exact h.serve ((h.sound key laid hkey).pageScoped (hheeds _ laid key hparse hlaid hkey) kind offset _)

theorem SessionOk.whole {past : List Graphs} {cache : CacheInner (Item GraphNode × P) (Item GraphRelationship)}
    {s : Session P} (h : SessionOk past cache s) (hend : s.cursor = none) : ∃ g ∈ past, ∃ nodes edges,
      view g s.key (allowedOf s.principal) = some (nodes, edges) ∧ s.shown.map strip = nodes.map .inl ++ edges.map .inr := by
  obtain ⟨g, hg, hview⟩ := h.sound
  have hshown := h.follows
  rw [hend] at hshown
  have hsame : view g s.key s.laid.allowed = view g s.key (allowedOf s.principal) := by
    have hfits := h.fits
    unfold Fits at hfits
    split at hfits
    · rw [hfits]
    · rename_i hstored
      exact view_stored hstored _ _
  refine ⟨g, hg, _, _, hsame ▸ hview, ?_⟩
  rw [show s.shown = s.laid.items from hshown]
  simp [LaidOutGraph.items, strip, Function.comp_def]

theorem Inv.law (h : Inv w) : Law (fun _ => defaultTenant) w where
  whole i s hs hend := (h.sessions i s hs).whole hend
  nodes p page hpage := (h.served (some p) page hpage).nodes p rfl
  edges p page hpage := (h.served (some p) page hpage).edges p rfl
  cache := h.cache

end Inv

/-- **In every run whose steps heed the condition** the pages of an export are those of one state, a page has data of the
default tenant and of allowed databases, and the parts of the cache fit together. -/
theorem law_of_heeds (env : Env P) {w : World P} (h : Runs.Reach (step env) (Heeds env) World.init w) :
    Law (fun _ => defaultTenant) w := by
  have hinv : Inv w := h.inv .init fun _ _ _ hinv hheeds hstep => hinv.step hheeds hstep
  exact hinv.law

/-! #### Runs on one graph -/

def plainEnv : Env Unit where
  position _ _ _ _ := ()
  layoutId key fp := 'L' :: key.database ++ '/' :: key.graph ++ '/' :: Nat.toDigits 10 fp.1 ++ '/' :: Nat.toDigits 10 fp.2

def reader (tenant : TenantId) (databases : List Text) : Principal := ⟨tenant, .read, none, some databases⟩

def linksKey : CacheKey := ⟨['d'], ['g'], none, .force⟩

/-- A graph `g` of nodes and of one edge from a node to itself, in the database `d` of the default tenant. -/
def linked (nodes : List Text) (looped : Text) : Graphs where
  registrations := [((defaultTenant, ['d'], ['g']), (['n'], ['e']))]
  nodeTables := [((defaultTenant, ['d'], ['n']), nodes.map fun id => ⟨id, []⟩)]
  edgeTables := [((defaultTenant, ['d'], ['e']), [⟨looped, looped, []⟩])]
  databases := []

/-- A graph of two pages is exported to its end. -/
theorem law_of_heeds_exported : ∃ w : World Unit, w.served.length = 2 ∧ Law (fun _ => defaultTenant) w := by
  have h₀ : Runs.Reach (step plainEnv) (Heeds plainEnv) World.init World.init := .init
  have h₁ := h₀.step (Action.change (linked [['a']] ['a'])) (fun graph => rfl) rfl
  have h₂ := h₁.step (Action.request 1 (some (reader 0 [['d']])) linksKey 100) trivial rfl
  have h₃ := h₂.step (Action.countNodes 1) trivial rfl
  have h₄ := h₃.step (Action.countEdges 1) trivial rfl
  have h₅ := h₄.step (Action.lookup 1) (fun x laid _ _ hready => by cases hready) rfl
  have h₆ := h₅.step (Action.compute 1) (fun x fp laid _ _ _ hready => by cases hready) rfl
  have h₇ := h₆.step (Action.readNodes 1) (fun x hx => by cases hx; rfl) rfl
  have h₈ := h₇.step (Action.readEdges 1) (fun x nodes hx hstage => by
    cases hx
    cases hstage
    exact ⟨rfl, rfl⟩) rfl
  have h₉ := h₈.step (Action.insert 1) (fun x nodes edges _ _ => by
    constructor
    · intro key laid hready
      cases hready
    · intro j s hs
      cases hs) rfl
  have h₁₀ := h₉.step (Action.follow 1 100) trivial rfl
  exact ⟨_, rfl, law_of_heeds plainEnv h₁₀⟩

def firstPage (i : ℕ) (principal : Principal) : List Action :=
  [.request i (some principal) linksKey 100, .countNodes i, .countEdges i, .lookup i, .compute i, .readNodes i, .readEdges i,
    .insert i]

def twoStates : List Action :=
  [.change (linked [['a']] ['a'])] ++ firstPage 1 (reader 0 [['d']]) ++
    [.change (linked [['a'], ['b']] ['a']), .request 2 (some (reader 0 [['d']])) linksKey 100, .countNodes 2, .countEdges 2,
      .lookup 2, .fail 2, .change (linked [['c']] ['c'])] ++ firstPage 3 (reader 0 [['d']]) ++ [.follow 1 100]

def twoIds : List Action :=
  [.change (linked [['a']] ['a']), .request 1 (some (reader 0 [['d']])) linksKey 100, .countNodes 1, .countEdges 1, .lookup 1,
    .compute 1, .readNodes 1, .readEdges 1, .change (linked [['a'], ['b']] ['a'])] ++ firstPage 2 (reader 0 [['d']]) ++
    [.insert 1]

def readyId : Option (CacheState (Item GraphNode × Unit) (Item GraphRelationship)) → Text
  | some (.ready l) => l.layoutId
  | _ => []

theorem Law.view_of_end {home : Principal → TenantId} {w : World P} {i : ℕ} {s : Session P} (h : Law home w)
    (hs : w.sessions i = some s) (hend : s.cursor = none) :
    ∃ g ∈ w.past, (view g s.key (allowedOf s.principal)).map (fun v => v.1.map Sum.inl ++ v.2.map Sum.inr) =
      some (s.shown.map strip) := by
  obtain ⟨g, hg, nodes, edges, hview, hshown⟩ := h.whole i s hs hend
  exact ⟨g, hg, by rw [hview, hshown, Option.map_some]⟩

def betweenReads : List Action :=
  [.change (linked [['a'], ['b']] ['a']), .request 1 (some (reader 0 [['d']])) linksKey 100, .countNodes 1, .countEdges 1,
    .lookup 1, .compute 1, .readNodes 1, .change (linked [['b']] ['b']), .readEdges 1, .insert 1, .follow 1 100]

def schemaKey : CacheKey := ⟨[], schemaGraph, none, .force⟩

def twoLists : List Action :=
  [.change ⟨[], [], [], [⟨defaultTenant, ['d'], [⟨['a'], []⟩], []⟩, ⟨defaultTenant, ['f'], [⟨['b'], []⟩], []⟩]⟩,
    .request 1 (some (reader 0 [['d']])) schemaKey 100, .countNodes 1, .lookup 1, .compute 1, .readNodes 1, .readEdges 1,
    .insert 1, .request 2 (some (reader 0 [['f']])) schemaKey 100, .countNodes 2, .lookup 2]

def unnamedDatabase : List Action :=
  [.change ⟨[((defaultTenant, [], ['g']), (['n'], ['e']))], [((defaultTenant, [], ['n']), [⟨['a'], []⟩])],
      [((defaultTenant, [], ['e']), [])], []⟩,
    .request 1 (some (reader 0 [['d']])) ⟨[], ['g'], none, .force⟩ 100, .countNodes 1, .countEdges 1, .lookup 1, .compute 1,
    .readNodes 1, .readEdges 1, .insert 1]

theorem step_countNodes {env : Env P} {w : World P} {i n : ℕ} {x : Work} (hx : w.work i = some x)
    (hstage : x.stage = .resolved) (hcount : countNodes w.graphs x.key.realm x.provider = some (n, none)) :
    step env w (.countNodes i) = some (w.setStage i x (.counted n)) := by
  simp only [step, hx, hstage, hcount]

theorem breaks_background : ∃ w : World Unit, Runs.Reach (step plainEnv) Runs.Free World.init w ∧
    ¬ Law Principal.tenant w := by
  have h₀ : Runs.Reach (step plainEnv) Runs.Free World.init World.init := .init
  have h₁₀ := h₀.run [.change (linked [['a']] ['a']),
    .request 1 (some (reader 0 [['d']])) linksKey 100, .countNodes 1, .countEdges 1, .lookup 1,
    .compute 1, .readNodes 1, .readEdges 1, .change (linked (List.replicate 20001 ['a']) ['a']),
    .request 2 (some (reader 0 [['d']])) linksKey 100] rfl
  have hcount : countNodes (linked (List.replicate 20001 ['a']) ['a']) none (.stored ['d'] ['n'] ['e']) =
      some (20001, none) := by
    change some (((List.replicate 20001 ['a']).map fun id => (⟨id, []⟩ : GraphNode)).length, (none : Option ℕ)) = _
    rw [length_map, length_replicate]
  have h₁₁ := h₁₀.step (Action.countNodes 2) trivial (step_countNodes rfl rfl hcount)
  have h₁₅ := h₁₁.run [.countEdges 2, .lookup 2, .insert 1, .compute 2] rfl
  refine ⟨_, h₁₅, fun h => ?_⟩
  -- the key is in the list of ready keys, and is not ready
  obtain ⟨l, hl⟩ := (h.cache.lists.2 linksKey).1 (mem_singleton.2 rfl)
  cases hl

set_option maxRecDepth 8000 in
/-- **The law fails**: a principal of another tenant reads the data of the default one; a cursor leads to a database that is
not allowed; the nodes of an export are of one state, and its edges of another, by a second computation under one id or by a
change between two reads; an id leads to a layout that is not ready; the graph of schemas is that of another allow-list; the
scope of a database with an empty name is not looked at; and a ready key is computed again. -/
theorem breaks : (∀ actions ∈ [[.change (linked [['a']] ['a'])] ++ firstPage 1 (reader 7 [['d']]),
        [.change (linked [['a']] ['a'])] ++ firstPage 1 (reader 0 [['d']]) ++
          [.cursor (some (reader 0 [['f']])) ['f'] (cursorText (plainEnv.layoutId linksKey (1, 1)) 'n' 0) 100],
        twoStates, betweenReads, twoIds, twoLists, unnamedDatabase],
      ∃ w, Runs.run (step plainEnv) Runs.Free World.init actions = some w ∧ ¬ Law Principal.tenant w) ∧
      ∃ w : World Unit, Runs.Reach (step plainEnv) Runs.Free World.init w ∧ ¬ Law Principal.tenant w := by
  refine ⟨fun actions hactions => ?_, breaks_background⟩
  simp only [mem_cons, not_mem_nil, or_false] at hactions
  rcases hactions with rfl | rfl | rfl | rfl | rfl | rfl | rfl
  · refine ⟨_, rfl, fun h => ?_⟩
    have hpage := h.nodes _ _ mem_cons_self _ mem_cons_self
    exact absurd hpage (by decide)
  · refine ⟨_, rfl, fun h => ?_⟩
    have hpage := h.nodes _ _ mem_cons_self _ mem_cons_self
    exact absurd hpage (by decide)
  · refine ⟨_, rfl, fun h => ?_⟩
    have hwhole := h.view_of_end (i := 1) rfl rfl
    exact absurd hwhole (by decide)
  · refine ⟨_, rfl, fun h => ?_⟩
    have hwhole := h.view_of_end (i := 1) rfl rfl
    exact absurd hwhole (by decide)
  · refine ⟨_, rfl, fun h => ?_⟩
    obtain ⟨-, key, hkey⟩ := h.cache.points (plainEnv.layoutId linksKey (2, 1)) _ rfl
    -- the one ready key has the other id
    have hmem : key ∈ [linksKey] := (h.cache.lists.2 key).2 ⟨_, hkey⟩
    obtain rfl := mem_singleton.1 hmem
    have hid := congrArg readyId hkey
    exact absurd hid (by decide)
  · refine ⟨_, rfl, fun h => ?_⟩
    have hpage := h.nodes _ _ mem_cons_self _ mem_cons_self
    exact absurd hpage (by decide)
  · refine ⟨_, rfl, fun h => ?_⟩
    have hpage := h.nodes _ _ mem_cons_self _ mem_cons_self
    exact absurd hpage (by decide)

end GraphExport
