/-
**The ingest of a batch of memory operations.**

A batch is written as one append of nodes and one append of edges, each under a key that is made from the rows.  A
batch that fails is tried again, and the keys are to keep what is stored from being stored twice.
-/

import Pensieve.Runs
import Pensieve.SearchGrammar

namespace MemoryIngest

open List Function
open Discover (Text)

/-! ### Rows -/

/-- A memory to create; `B` is the type of its other fields. -/
structure CreateMemory (B : Type) where
  content : Text
  realm : Text
  references : List Text
  rest : B
  deriving DecidableEq

/-- The columns of a row that the key does not look at; `V` is the type of embeddings. -/
inductive Columns (B V : Type)
  | node (mem : CreateMemory B) (embedding : V)
  | edge (src dst relType realm : Text)
  | given (columns : B)
  deriving DecidableEq

structure Row (B V : Type) where
  id : Option Text
  updatedAt : Option Text
  createdAt : Option Text
  columns : Columns B V
  deriving DecidableEq

inductive MemoryOp (B V : Type)
  | create (id : Text) (mem : CreateMemory B) (now : Text)
  | saveAs (id : Text) (mem : CreateMemory B) (now : Text)
  | appendNode (row : Row B V)
  | addEdge (row : Row B V)

variable {B V K : Type}

def nodeId (id : Text) : Text := "memory:".toList ++ id

def edgeId (src dst relType : Text) : Text := src ++ "->".toList ++ dst ++ ":".toList ++ relType

def nodeRow (id : Text) (mem : CreateMemory B) (embedding : V) (now : Text) : Row B V :=
  ⟨some (nodeId id), some now, some now, .node mem embedding⟩

def edgeRow (src dst relType realm now : Text) : Row B V :=
  ⟨some (edgeId src dst relType), none, some now, .edge src dst relType realm⟩

def edgeReferences : Text := "REFERENCES".toList

inductive Table
  | nodes
  | edges
  deriving DecidableEq

structure Batch (B V : Type) where
  nodes : List (Row B V)
  edges : List (Row B V)
  deriving DecidableEq

def Batch.rows (b : Batch B V) : Table → List (Row B V)
  | .nodes => b.nodes
  | .edges => b.edges

def addOp (embed : Text → V) (b : Batch B V) : MemoryOp B V → Batch B V
  | .create id mem now =>
    { nodes := b.nodes ++ [nodeRow id mem (embed mem.content) now]
      edges := b.edges ++ mem.references.map fun r => edgeRow (nodeId id) r edgeReferences mem.realm now }
  | .saveAs id mem now => { b with nodes := b.nodes ++ [nodeRow id mem (embed mem.content) now] }
  | .appendNode row => { b with nodes := b.nodes ++ [row] }
  | .addEdge row => { b with edges := b.edges ++ [row] }

def buildRows (embed : Text → V) (ops : List (MemoryOp B V)) : Batch B V := ops.foldl (addOp embed) ⟨[], []⟩

/-! ### The key and the attempts -/

/-- What `batch_key` hashes. -/
def fingerprint (b : Batch B V) : List Text × ℕ × ℕ :=
  ((b.nodes ++ b.edges).flatMap fun row => row.id.toList ++ row.updatedAt.toList ++ row.createdAt.toList,
    b.nodes.length, b.edges.length)

def batchKey (hash : List Text × ℕ × ℕ → K) (b : Batch B V) : K := hash (fingerprint b)

/-- Where an append fails: before the key is looked up, before the rows are committed, or before the key is recorded. -/
inductive Point
  | lookup
  | commit
  | record
  deriving DecidableEq

/-- Where an attempt fails: `early`, before the appends, or in one of them. -/
structure Faults where
  early : Bool
  append : Table → Option Point

/-- For each table the batches whose rows are committed; the keys that are recorded and not expired; the batches that
were tried, and those that succeeded. -/
structure World (B V K : Type) where
  stored : Table → List (Batch B V)
  ledger : List (Table × K)
  tried : List (Batch B V)
  landed : List (Batch B V)

variable [DecidableEq K]

def appendRowsKeyed (key : K) (b : Batch B V) (t : Table) (fault : Option Point) (w : World B V K) :
    World B V K × Bool :=
  if b.rows t = [] then (w, true)
  else if fault = some .lookup then (w, false)
  else if (t, key) ∈ w.ledger then (w, true)
  else if fault = some .commit then (w, false)
  else
    let w := { w with stored := update w.stored t (w.stored t ++ [b]) }
    if fault = some .record then (w, false) else ({ w with ledger := w.ledger ++ [(t, key)] }, true)

/-- `handle`: the nodes first. -/
def handle (hash : List Text × ℕ × ℕ → K) (w : World B V K) (b : Batch B V) (f : Faults) : World B V K :=
  let w := { w with tried := w.tried ++ [b] }
  if f.early then w
  else
    match appendRowsKeyed (batchKey hash b) b .nodes (f.append .nodes) w with
    | (w, false) => w
    | (w, true) =>
      match appendRowsKeyed (batchKey hash b) b .edges (f.append .edges) w with
      | (w, false) => w
      | (w, true) => { w with landed := w.landed ++ [b] }

structure Attempt (B V : Type) where
  ops : List (MemoryOp B V)
  faults : Faults

def step (hash : List Text × ℕ × ℕ → K) (embed : Text → V) (w : World B V K) (a : Attempt B V) : Option (World B V K) :=
  some (handle hash w (buildRows embed a.ops) a.faults)

def World.init : World B V K := ⟨fun _ => [], [], [], []⟩

/-! ### Each row once -/

/-- The rows of a batch are committed at most once, and once if an attempt has succeeded; its edges are not there before
its nodes; and no other batch has its key. -/
structure RetrySafe [DecidableEq B] [DecidableEq V] (hash : List Text × ℕ × ℕ → K) (w : World B V K) (b : Batch B V) : Prop where
  once : ∀ t, (w.stored t).count b ≤ 1
  landed : b ∈ w.landed → ∀ t, b.rows t ≠ [] → (w.stored t).count b = 1
  ordered : b ∈ w.stored .edges → b.nodes ≠ [] → b ∈ w.stored .nodes
  unshared : ∀ b' ∈ w.tried, batchKey hash b' = batchKey hash b → b' = b

/-- No attempt fails between a commit and the record of its key, and batches with one fingerprint have the same rows. -/
def Heeds (embed : Text → V) (w : World B V K) (a : Attempt B V) : Prop :=
  (∀ t, a.faults.append t ≠ some .record) ∧
    ∀ b ∈ w.tried, fingerprint b = fingerprint (buildRows embed a.ops) → b = buildRows embed a.ops

/-- The ledger holds the keys of what is stored, and of each batch only one copy is. -/
structure Inv (hash : List Text × ℕ × ℕ → K) (w : World B V K) : Prop where
  nodup : ∀ t, (w.stored t).Nodup
  tried : ∀ t, ∀ b ∈ w.stored t, b ∈ w.tried
  ledger : ∀ t k, (t, k) ∈ w.ledger ↔ ∃ b ∈ w.stored t, batchKey hash b = k
  landed : ∀ b ∈ w.landed, ∀ t, b.rows t ≠ [] → b ∈ w.stored t
  ordered : ∀ b ∈ w.stored .edges, b.nodes ≠ [] → b ∈ w.stored .nodes
  unshared : ∀ b ∈ w.tried, ∀ b' ∈ w.tried, batchKey hash b' = batchKey hash b → b' = b

variable {hash : List Text × ℕ × ℕ → K} {embed : Text → V} {w w' : World B V K} {a : Attempt B V} {b : Batch B V}
  {t t' : Table} {fault : Option Point}

theorem append_cases (hash : List Text × ℕ × ℕ → K) (w : World B V K) (b : Batch B V) (t : Table) (hfault : fault ≠ some .record) :
    appendRowsKeyed (batchKey hash b) b t fault w = (w, false) ∨
    appendRowsKeyed (batchKey hash b) b t fault w = (w, true) ∧ (b.rows t = [] ∨ (t, batchKey hash b) ∈ w.ledger) ∨
      (t, batchKey hash b) ∉ w.ledger ∧ appendRowsKeyed (batchKey hash b) b t fault w = ({ w with
            stored := update w.stored t (w.stored t ++ [b])
            ledger := w.ledger ++ [(t, batchKey hash b)] }, true) := by
  unfold appendRowsKeyed
  split_ifs <;> simp_all

omit [DecidableEq K] in
theorem mem_update {b' : Batch B V} : b' ∈ update w.stored t (w.stored t ++ [b]) t' ↔
    b' ∈ w.stored t' ∨ t' = t ∧ b' = b := by
  by_cases h : t' = t
  · subst h
    simp
  · simp [h]

theorem Inv.append (h : Inv hash w) (hb : b ∈ w.tried) (hnodes : t = .edges → b.nodes ≠ [] → b ∈ w.stored .nodes)
    (hfault : fault ≠ some .record) {ok : Bool}
    (happend : appendRowsKeyed (batchKey hash b) b t fault w = (w', ok)) :
    Inv hash w' ∧ w'.tried = w.tried ∧ (∀ t', ∀ b' ∈ w.stored t', b' ∈ w'.stored t') ∧
      (ok = true → b.rows t ≠ [] → b ∈ w'.stored t) := by
  rcases append_cases hash w b t hfault with heq | ⟨heq, hmem⟩ | ⟨hnew, heq⟩
  all_goals
    rw [heq] at happend
    cases happend
  · exact ⟨h, rfl, fun _ _ h => h, nofun⟩
  · refine ⟨h, rfl, fun _ _ h => h, fun _ hrows => ?_⟩
    obtain ⟨b', hb', hkey⟩ := (h.ledger _ _).1 (hmem.resolve_left hrows)
    rwa [← h.unshared b hb b' (h.tried _ _ hb') hkey]
  · have hfresh : b ∉ w.stored t := fun hmem => hnew ((h.ledger _ _).2 ⟨b, hmem, rfl⟩)
    refine ⟨⟨fun t' => ?_, fun t' b' hb' => ?_, fun t' k => ?_, fun b' hb' t' hrows => ?_, fun b' hb' hrows => ?_, h.unshared⟩,
      rfl, fun t' b' hb' => mem_update.2 (.inl hb'), fun _ _ => mem_update.2 (.inr ⟨rfl, rfl⟩)⟩
    · by_cases ht : t' = t
      · subst ht
        simpa using (h.nodup t').append (nodup_singleton b) (by simpa using hfresh)
      · simpa [update_of_ne ht] using h.nodup t'
    · rcases mem_update.1 hb' with hb' | ⟨-, rfl⟩
      · exact h.tried t' b' hb'
      · exact hb
    · simp only [mem_append, h.ledger, mem_singleton, Prod.mk.injEq, mem_update]
      constructor
      · rintro (⟨b', hb', hk⟩ | ⟨rfl, rfl⟩)
        · exact ⟨b', .inl hb', hk⟩
        · exact ⟨b, .inr ⟨rfl, rfl⟩, rfl⟩
      · rintro ⟨b', hb' | ⟨rfl, rfl⟩, rfl⟩
        · exact .inl ⟨b', hb', rfl⟩
        · exact .inr ⟨rfl, rfl⟩
    · exact mem_update.2 (.inl (h.landed b' hb' t' hrows))
    · rcases mem_update.1 hb' with hb' | ⟨ht, rfl⟩
      · exact mem_update.2 (.inl (h.ordered b' hb' hrows))
      · exact mem_update.2 (.inl (hnodes ht.symm hrows))

theorem Inv.handle (h : Inv hash w) (hinj : Injective hash) {f : Faults} (hfault : ∀ t, f.append t ≠ some .record)
    (hsame : ∀ b' ∈ w.tried, fingerprint b' = fingerprint b → b' = b) : Inv hash (handle hash w b f) := by
  have htry : Inv hash { w with tried := w.tried ++ [b] } := by
    refine { h with
      tried := fun t b' hb' => mem_append_left _ (h.tried t b' hb')
      unshared := fun x hx y hy hkey => ?_ }
    have hfp := hinj hkey
    simp only [mem_append, mem_singleton] at hx hy
    rcases hx with hx | rfl <;> rcases hy with hy | rfl
    · exact h.unshared x hx y hy hkey
    · exact (hsame x hx hfp.symm).symm
    · exact hsame y hy hfp
    · rfl
  have hb : b ∈ w.tried ++ [b] := mem_append_right _ (mem_singleton_self b)
  rw [MemoryIngest.handle]
  split
  · exact htry
  split
  next w₁ hnodes => exact (htry.append (t := .nodes) hb (fun h => by cases h) (hfault _) hnodes).1
  next w₁ hnodes =>
    obtain ⟨h₁, htried, -, hstored⟩ := htry.append (t := .nodes) hb (fun h => by cases h) (hfault _) hnodes
    have hb₁ : b ∈ w₁.tried := htried ▸ hb
    split
    next w₂ hedges => exact (h₁.append (t := .edges) hb₁ (fun _ => hstored rfl) (hfault _) hedges).1
    next w₂ hedges =>
      obtain ⟨h₂, -, hkeep, hstored'⟩ := h₁.append (t := .edges) hb₁ (fun _ => hstored rfl) (hfault _) hedges
      refine { h₂ with landed := fun b' hb' t hrows => ?_ }
      rcases mem_append.1 hb' with hb' | hb'
      · exact h₂.landed b' hb' t hrows
      · obtain rfl := mem_singleton.1 hb'
        cases t with
        | nodes => exact hkeep _ _ (hstored rfl hrows)
        | edges => exact hstored' rfl hrows

/-- **Retries are safe** in a run without a fault before a record and without two batches of one fingerprint. -/
theorem retrySafe_of_heeds [DecidableEq B] [DecidableEq V] (hinj : Injective hash)
    (h : Runs.Reach (step hash embed) (Heeds embed) (World.init : World B V K) w) : ∀ b ∈ w.tried, RetrySafe hash w b := by
  have hinv : Inv hash w := by
    refine h.inv ⟨fun _ => nodup_nil, nofun, by simp [World.init], nofun, nofun, nofun⟩ fun w a w' hi ha hs => ?_
    cases hs
    exact hi.handle hinj ha.1 ha.2
  intro b hb
  exact ⟨fun t => nodup_iff_count_le_one.1 (hinv.nodup t) b,
    fun hl t hrows => count_eq_one_of_mem (hinv.nodup t) (hinv.landed b hl t hrows), hinv.ordered b, hinv.unshared b hb⟩

def memory : MemoryOp Unit Unit := .create "1".toList ⟨"note".toList, "default".toList, ["memory:0".toList], ()⟩ "t".toList

def attempt (p : Option Point) : Attempt Unit Unit := ⟨[memory], ⟨false, fun t => if t = .edges then p else none⟩⟩

/-- The edges fail, and the next attempt lands the batch. -/
theorem retrySafe_of_heeds_two : ∃ w, Runs.Reach (step id fun _ => ()) (Heeds fun _ => ()) World.init w ∧
    w.landed = [buildRows (fun _ => ()) [memory]] ∧ ∀ b ∈ w.tried, RetrySafe id w b := by
  have hfirst : Runs.Reach (step id fun _ => ()) (Heeds fun _ => ()) World.init _ :=
    .step (attempt (some .commit)) .init ⟨by rintro (_ | _) <;> decide, nofun⟩ rfl
  have hsecond : Runs.Reach (step id fun _ => ()) (Heeds fun _ => ()) World.init _ :=
    .step (attempt none) hfirst ⟨by rintro (_ | _) <;> decide, by decide +kernel⟩ rfl
  exact ⟨_, hsecond, by decide +kernel, retrySafe_of_heeds injective_id hsecond⟩

/-- **When the record of a key fails, the next attempt stores the edges again.** -/
theorem edges_stored_twice : ∃ w, Runs.Reach (step id fun _ => ()) Runs.Free World.init w ∧
    ¬ RetrySafe id w (buildRows (fun _ => ()) [memory]) := by
  have hrun : Runs.Reach (step id fun _ => ()) Runs.Free World.init _ :=
    .step (attempt none) (.step (attempt (some .record)) .init trivial rfl) trivial rfl
  exact ⟨_, hrun, fun h => absurd (h.once .edges) (by decide +kernel)⟩

end MemoryIngest
