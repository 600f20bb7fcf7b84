/-
**The Kafka consumer.**

One consumer reads the partitions of the mapped topics.  It collects the payloads of a topic in a
buffer, and flushes the buffer when it is full, on a timer and on shutdown: it looks the table up,
parses the whole buffer as NDJSON, hands the rows to the write path, and then commits the position
of the topic's partitions.
-/

import Pensieve.IngestLedger

namespace Kafka

open Function
open List
open Catalog (TableId)
open Ledger (WriteMode)

/-! ### Topics and tables -/

abbrev Byte := UInt8

abbrev Topic := String

abbrev Partition := ℕ

structure TopicMapping where
  topic : Topic
  database : String
  table : String
  deriving DecidableEq

structure TableRef (S : Type) where
  id : TableId
  schema : S

variable {S R : Type}

/-- What a consumer runs with: its configuration, the mode of the write path, the tables that the catalog has, and
`parse_ndjson`. -/
structure Setup (S R : Type) where
  topics : List TopicMapping
  batchSize : ℕ
  mode : WriteMode
  tables : String → String → Option (TableRef S)
  parseNdjson : S → List Byte → Option (List R)

namespace Setup

variable (c : Setup S R)

def mapping (topic : Topic) : Option TopicMapping := c.topics.find? (·.topic = topic)

def target (topic : Topic) : Option (TableRef S) := (c.mapping topic).bind fun m => c.tables m.database m.table

end Setup

/-! ### Messages -/

/-- A message with a payload, as the consumer got it; the buffers of the code hold the payloads only. -/
structure Delivered where
  partition : Partition
  offset : ℕ
  payload : List Byte
  deriving DecidableEq

def asLine (payload : List Byte) : List Byte := if payload.getLast? = some 10 then payload else payload ++ [10]

def body (bucket : List Delivered) : List Byte := bucket.flatMap fun m => asLine m.payload

def rowsOf (c : Setup S R) (table : TableRef S) (m : Delivered) : List R :=
  (c.parseNdjson table.schema (asLine m.payload)).getD []

/-- An extent with its rows, and the messages of the buffer that it was written from. -/
structure Extent (R : Type) where
  topic : Topic
  table : TableId
  rows : List R
  source : List Delivered

/-! ### The broker and the consumer -/

structure World (S R : Type) where
  /-- The messages of each partition; one without a payload is `none`. -/
  log : Topic → Partition → List (Option (List Byte))
  committed : Topic → Partition → ℕ
  assignment : List (Topic × Partition)
  fetch : Topic → Partition → ℕ
  position : Topic → Partition → Option ℕ
  pending : Topic → List Delivered
  tableCache : Topic → Option (TableRef S)
  staged : List (Extent R)
  extents : List (Extent R)

def World.init : World S R where
  log _ _ := []
  committed _ _ := 0
  assignment := []
  fetch _ _ := 0
  position _ _ := none
  pending _ := []
  tableCache _ := none
  staged := []
  extents := []

inductive Write
  | acked
  | failed (landed : Bool)
  deriving DecidableEq

structure Outcome where
  lookupOk : Bool
  write : Write
  commitOk : Bool
  deriving DecidableEq

namespace World

variable (c : Setup S R) (s : World S R)

def clear (topic : Topic) : World S R := { s with pending := Function.update s.pending topic [] }

def store (mode : WriteMode) (e : Extent R) : World S R :=
  if e.rows.isEmpty then s
  else
    match mode with
    | .staged => { s with staged := s.staged ++ [e] }
    | _ => { s with extents := s.extents ++ [e] }

def commitPositions (topic : Topic) : World S R :=
  { s with
    committed := fun t p =>
      if t = topic ∧ (t, p) ∈ s.assignment then (s.position t p).getD (s.committed t p) else s.committed t p }

def flushTopic (topic : Topic) (o : Outcome) : World S R :=
  match c.mapping topic with
  | none => s.clear topic
  | some mapping =>
    match (s.tableCache topic).or (if o.lookupOk then c.tables mapping.database mapping.table else none) with
    | none => s.clear topic
    | some table =>
      let s := { s with tableCache := Function.update s.tableCache topic (some table) }
      match c.parseNdjson table.schema (body (s.pending topic)) with
      | none => s.clear topic
      | some rows =>
        let e : Extent R := ⟨topic, table.id, rows, s.pending topic⟩
        match o.write with
        | .acked =>
          let s := s.store c.mode e
          (if o.commitOk then s.commitPositions topic else s).clear topic
        | .failed landed => if landed then s.store c.mode e else s

def receive (topic : Topic) (partition : Partition) (message : Option (List Byte)) (o : Outcome) : World S R :=
  let offset := s.fetch topic partition
  let s :=
    { s with
      fetch := Function.update s.fetch topic (Function.update (s.fetch topic) partition (offset + 1))
      position := Function.update s.position topic (Function.update (s.position topic) partition (some (offset + 1))) }
  match message with
  | none => s
  | some payload =>
    let s :=
      { s with pending := Function.update s.pending topic (s.pending topic ++ [⟨partition, offset, payload⟩]) }
    if c.batchSize ≤ (s.pending topic).length then s.flushTopic c topic o else s

end World

inductive Action
  | produce (topic : Topic) (partition : Partition) (message : Option (List Byte))
  | deliver (topic : Topic) (partition : Partition) (o : Outcome)
  /-- a flush of `flush_all` -/
  | flush (topic : Topic) (o : Outcome)
  | commitStaged (i : ℕ)
  | restart (assignment : List (Topic × Partition))
  deriving DecidableEq

def step (c : Setup S R) (s : World S R) : Action → Option (World S R)
  | .produce topic partition message =>
    some { s with
      log := Function.update s.log topic (Function.update (s.log topic) partition (s.log topic partition ++ [message])) }
  | .deliver topic partition o =>
    if (topic, partition) ∈ s.assignment then
      (s.log topic partition)[s.fetch topic partition]?.map fun message => s.receive c topic partition message o
    else none
  | .flush topic o => if (s.pending topic).isEmpty then none else some (s.flushTopic c topic o)
  | .commitStaged i =>
    s.staged[i]?.map fun e => { s with staged := s.staged.eraseIdx i, extents := s.extents ++ [e] }
  | .restart assignment =>
    some { s with
      assignment := assignment
      fetch := s.committed
      position := fun _ _ => none
      pending := fun _ => []
      tableCache := fun _ => none }

/-! ### At least once -/

def Stored (c : Setup S R) (table : TableRef S) (s : World S R) (topic : Topic) (m : Delivered) : Prop :=
  ∃ e ∈ s.extents, e.topic = topic ∧ e.table = table.id ∧ m ∈ e.source ∧
    (e.source.flatMap (rowsOf c table)).Subperm e.rows

def AtLeastOnce (c : Setup S R) (s : World S R) : Prop :=
  ∀ topic table, c.target topic = some table → ∀ partition offset payload,
    offset < s.committed topic partition → (s.log topic partition)[offset]? = some (some payload) →
    rowsOf c table ⟨partition, offset, payload⟩ ≠ [] → Stored c table s topic ⟨partition, offset, payload⟩

/-- The buffer has no row to lose; or the table is found, the buffer parses, to rows among which are those of each of
its messages, and they go to a snapshot at once. -/
def KeepsBucket (c : Setup S R) (s : World S R) (topic : Topic) (bucket : List Delivered) (o : Outcome) : Prop :=
  ∀ table, c.target topic = some table → bucket.flatMap (rowsOf c table) = [] ∨
    (s.tableCache topic ≠ none ∨ o.lookupOk = true) ∧ c.mode ≠ .staged ∧
      ∃ rows, c.parseNdjson table.schema (body bucket) = some rows ∧ (bucket.flatMap (rowsOf c table)).Subperm rows

def flushed (c : Setup S R) (s : World S R) : Action → Option (Topic × List Delivered × Outcome)
  | .deliver topic partition o =>
    match (s.log topic partition)[s.fetch topic partition]? with
    | some (some payload) =>
      let bucket := s.pending topic ++ [⟨partition, s.fetch topic partition, payload⟩]
      if c.batchSize ≤ bucket.length then some (topic, bucket, o) else none
    | _ => none
  | .flush topic o => some (topic, s.pending topic, o)
  | _ => none

def Keeps (c : Setup S R) (s : World S R) (a : Action) : Prop :=
  ∀ topic bucket o, flushed c s a = some (topic, bucket, o) → KeepsBucket c s topic bucket o

/-! ### What a flush keeps -/

/-- What was delivered is in a buffer or in an extent, and what lies below a committed offset is in an extent. -/
structure Inv (c : Setup S R) (s : World S R) : Prop where
  cache : ∀ topic table, s.tableCache topic = some table → c.target topic = some table
  fetchLe : ∀ topic partition, s.fetch topic partition ≤ (s.log topic partition).length
  committedLe : ∀ topic partition, s.committed topic partition ≤ s.fetch topic partition
  positionLe : ∀ topic partition k, s.position topic partition = some k → k = s.fetch topic partition
  held : ∀ topic table, c.target topic = some table → ∀ partition offset payload,
    offset < s.fetch topic partition → (s.log topic partition)[offset]? = some (some payload) →
    rowsOf c table ⟨partition, offset, payload⟩ ≠ [] →
    Stored c table s topic ⟨partition, offset, payload⟩ ∨ ⟨partition, offset, payload⟩ ∈ s.pending topic
  below : AtLeastOnce c s

section Flush

variable {c : Setup S R} {s s' : World S R} {topic : Topic} {table : TableRef S} {o : Outcome} {m : Delivered}

theorem inv_init : Inv c (World.init : World S R) where
  cache _ _ h := by simp [World.init] at h
  fetchLe _ _ := Nat.le_refl _
  committedLe _ _ := Nat.le_refl _
  positionLe _ _ _ h := by simp [World.init] at h
  held _ _ _ _ _ _ h := by simp [World.init] at h
  below _ _ _ _ _ _ h := by simp [World.init] at h

theorem Stored.mono (h : Stored c table s topic m) (hsub : s.extents ⊆ s'.extents) : Stored c table s' topic m := by
  obtain ⟨e, he, hrest⟩ := h
  exact ⟨e, hsub he, hrest⟩

theorem rowsOf_eq_nil_of_flatMap {bucket : List Delivered} (h : bucket.flatMap (rowsOf c table) = [])
    (hm : m ∈ bucket) : rowsOf c table m = [] :=
  flatMap_eq_nil_iff.1 h m hm

theorem target_of_lookup {mapping : TopicMapping} (hinv : Inv c s) (hmap : c.mapping topic = some mapping)
    (h : (s.tableCache topic).or (if o.lookupOk then c.tables mapping.database mapping.table else none) = some table) :
    c.target topic = some table := by
  cases hcache : s.tableCache topic with
  | some cached =>
    rw [hcache, Option.some_or] at h
    cases h
    exact hinv.cache topic table hcache
  | none =>
    rw [hcache, Option.none_or] at h
    split at h
    · simp [Setup.target, hmap, h]
    · simp at h

theorem not_found {mapping : TopicMapping} (hmap : c.mapping topic = some mapping)
    (h : (s.tableCache topic).or (if o.lookupOk then c.tables mapping.database mapping.table else none) = none)
    (htarget : c.target topic = some table) : s.tableCache topic = none ∧ o.lookupOk = false := by
  rw [Option.or_eq_none_iff] at h
  refine ⟨h.1, ?_⟩
  by_contra hok
  have hfind := h.2
  simp only [Setup.target, hmap, Option.bind_some] at htarget
  simp [Bool.not_eq_false] at hok
  rw [if_pos hok, htarget] at hfind
  simp at hfind

@[simp] theorem store_pending (mode : WriteMode) (e : Extent R) : (s.store mode e).pending = s.pending := by
  unfold World.store
  split
  · rfl
  · split <;> rfl

theorem extents_subset_store (mode : WriteMode) (e : Extent R) : s.extents ⊆ (s.store mode e).extents := by
  unfold World.store
  split
  · exact List.Subset.refl _
  · split
    · exact List.Subset.refl _
    · exact subset_append_left _ _

theorem mem_store {mode : WriteMode} {e : Extent R} (hmode : mode ≠ .staged) (hrows : e.rows ≠ []) :
    e ∈ (s.store mode e).extents := by
  unfold World.store
  rw [if_neg (by simpa using hrows)]
  cases mode with
  | staged => exact absurd rfl hmode
  | direct | staging => simp

theorem Inv.store (h : Inv c s) (mode : WriteMode) (e : Extent R) : Inv c (s.store mode e) := by
  have hsub : s.extents ⊆ (s.store mode e).extents := extents_subset_store mode e
  have hrest : (s.store mode e).log = s.log ∧ (s.store mode e).committed = s.committed ∧
      (s.store mode e).fetch = s.fetch ∧ (s.store mode e).position = s.position ∧
      (s.store mode e).tableCache = s.tableCache := by
    unfold World.store
    split
    · exact ⟨rfl, rfl, rfl, rfl, rfl⟩
    · split <;> exact ⟨rfl, rfl, rfl, rfl, rfl⟩
  obtain ⟨hlog, hcommitted, hfetch, hposition, hcache⟩ := hrest
  constructor
  · rw [hcache]
    exact h.cache
  · rw [hfetch, hlog]
    exact h.fetchLe
  · rw [hfetch, hcommitted]
    exact h.committedLe
  · rw [hfetch, hposition]
    exact h.positionLe
  · rw [hfetch, hlog, store_pending]
    intro topic table htarget partition offset payload hlt hmsg hne
    exact (h.held topic table htarget partition offset payload hlt hmsg hne).imp_left (·.mono hsub)
  · intro topic table htarget partition offset payload hlt hmsg hne
    rw [hcommitted] at hlt
    rw [hlog] at hmsg
    exact (h.below topic table htarget partition offset payload hlt hmsg hne).mono hsub

theorem Inv.clear (h : Inv c s)
    (hstored : ∀ table, c.target topic = some table → ∀ m ∈ s.pending topic, rowsOf c table m ≠ [] →
      Stored c table s topic m) : Inv c (s.clear topic) := by
  refine ⟨h.cache, h.fetchLe, h.committedLe, h.positionLe, ?_, h.below⟩
  intro t table htarget partition offset payload hlt hmsg hne
  obtain hst | hpend := h.held t table htarget partition offset payload hlt hmsg hne
  · exact .inl hst
  · by_cases ht : t = topic
    · subst ht
      exact .inl (hstored table htarget _ hpend hne)
    · right
      rw [World.clear]
      simpa [update_of_ne ht] using hpend

theorem Inv.commitPositions (h : Inv c s)
    (hstored : ∀ table, c.target topic = some table → ∀ m ∈ s.pending topic, rowsOf c table m ≠ [] →
      Stored c table s topic m) : Inv c (s.commitPositions topic) := by
  refine ⟨h.cache, h.fetchLe, ?_, h.positionLe, h.held, ?_⟩
  · intro t p
    simp only [World.commitPositions]
    split
    · cases hpos : s.position t p with
      | none => exact h.committedLe t p
      | some k => exact Nat.le_of_eq (h.positionLe t p k hpos)
    · exact h.committedLe t p
  · intro t table htarget p offset payload hlt hmsg hne
    simp only [World.commitPositions] at hlt
    by_cases hold : offset < s.committed t p
    · exact h.below t table htarget p offset payload hold hmsg hne
    · split at hlt
      next hcommit =>
        obtain ⟨rfl, -⟩ := hcommit
        cases hpos : s.position t p with
        | none =>
          rw [hpos] at hlt
          exact absurd hlt hold
        | some k =>
          rw [hpos, Option.getD_some, h.positionLe t p k hpos] at hlt
          obtain hst | hpend := h.held t table htarget p offset payload hlt hmsg hne
          · exact hst
          · exact hstored table htarget _ hpend hne
      next hcommit => exact absurd hlt hold

theorem Inv.flushTopic (h : Inv c s) (hkeeps : KeepsBucket c s topic (s.pending topic) o) :
    Inv c (s.flushTopic c topic o) := by
  unfold World.flushTopic
  split
  next hmap =>
    refine h.clear fun table htarget => ?_
    simp [Setup.target, hmap] at htarget
  next mapping hmap =>
    split
    next hlookup =>
      refine h.clear fun table htarget m hm hne => ?_
      obtain ⟨hcache, hfail⟩ := not_found hmap hlookup htarget
      obtain hnil | ⟨hfound, -⟩ := hkeeps table htarget
      · exact absurd (rowsOf_eq_nil_of_flatMap hnil hm) hne
      · simp [hcache, hfail] at hfound
    next table hlookup =>
      have htarget := target_of_lookup h hmap hlookup
      have hcached : Inv c { s with tableCache := Function.update s.tableCache topic (some table) } := by
        refine ⟨?_, h.fetchLe, h.committedLe, h.positionLe, h.held, h.below⟩
        intro t table' ht
        dsimp only at ht
        by_cases heq : t = topic
        · subst heq
          rw [update_self] at ht
          cases ht
          exact htarget
        · rw [update_of_ne heq] at ht
          exact h.cache t table' ht
      dsimp only
      split
      next hparse =>
        refine hcached.clear fun table' htarget' m hm hne => ?_
        rw [htarget] at htarget'
        cases htarget'
        obtain hnil | ⟨-, -, rows, hrows, -⟩ := hkeeps table htarget
        · exact absurd (rowsOf_eq_nil_of_flatMap hnil hm) hne
        · rw [hparse] at hrows
          simp at hrows
      next rows hparse =>
        split
        · -- the write is acknowledged: the buffer is stored, committed and cleared
          set stored := World.store { s with tableCache := Function.update s.tableCache topic (some table) } c.mode
            ⟨topic, table.id, rows, s.pending topic⟩
          have hstored : ∀ table', c.target topic = some table' → ∀ m ∈ stored.pending topic, rowsOf c table' m ≠ [] →
              Stored c table' stored topic m := by
            intro table' htarget' m hm hne
            replace hm : m ∈ s.pending topic := by simpa [stored] using hm
            rw [htarget] at htarget'
            cases htarget'
            obtain hnil | ⟨-, hmode, rows', hrows, hsub⟩ := hkeeps table htarget
            · exact absurd (rowsOf_eq_nil_of_flatMap hnil hm) hne
            · rw [hparse] at hrows
              cases hrows
              refine ⟨_, mem_store hmode ?_, rfl, rfl, hm, hsub⟩
              rintro rfl
              exact hne (rowsOf_eq_nil_of_flatMap (subperm_nil.1 hsub) hm)
          have hstore : Inv c stored := hcached.store c.mode _
          split
          · refine (hstore.commitPositions hstored).clear fun table' htarget' m hm hne => ?_
            exact (hstored table' htarget' m hm hne).mono (List.Subset.refl _)
          · exact hstore.clear hstored
        · split
          · exact hcached.store _ _
          · exact hcached

end Flush

section Runs

variable {c : Setup S R} {s s' : World S R} {topic : Topic} {partition : Partition} {o : Outcome}

theorem update_apply {V : Type} (f : Topic → Partition → V) (t t' : Topic) (p p' : Partition) (v : V) :
    Function.update f t (Function.update (f t) p v) t' p' = if t' = t ∧ p' = p then v else f t' p' := by
  by_cases ht : t' = t
  · subst ht
    by_cases hp : p' = p
    · simp [hp]
    · simp [hp]
  · simp [ht]

theorem Inv.produce (h : Inv c s) (message : Option (List Byte)) : Inv c { s with
      log := Function.update s.log topic (Function.update (s.log topic) partition
        (s.log topic partition ++ [message])) } := by
  have hlog : ∀ t p offset, offset < s.fetch t p →
      (Function.update s.log topic (Function.update (s.log topic) partition (s.log topic partition ++ [message]))
        t p)[offset]? = (s.log t p)[offset]? := by
    intro t p offset hlt
    rw [update_apply]
    split
    next heq =>
      obtain ⟨rfl, rfl⟩ := heq
      exact getElem?_append_left (lt_of_lt_of_le hlt (h.fetchLe t p))
    next heq => rfl
  refine ⟨h.cache, ?_, h.committedLe, h.positionLe, ?_, ?_⟩
  · intro t p
    refine le_trans (h.fetchLe t p) ?_
    dsimp only
    rw [update_apply]
    split
    next heq =>
      obtain ⟨rfl, rfl⟩ := heq
      simp
    next heq => exact Nat.le_refl _
  · intro t table htarget p offset payload hlt hmsg hne
    rw [hlog t p offset hlt] at hmsg
    exact h.held t table htarget p offset payload hlt hmsg hne
  · intro t table htarget p offset payload hlt hmsg hne
    rw [hlog t p offset (lt_of_lt_of_le hlt (h.committedLe t p))] at hmsg
    exact h.below t table htarget p offset payload hlt hmsg hne

def taken (s : World S R) (topic : Topic) (partition : Partition) (payload : Option (List Byte)) : World S R :=
  { s with
    fetch := Function.update s.fetch topic (Function.update (s.fetch topic) partition (s.fetch topic partition + 1))
    position := Function.update s.position topic
      (Function.update (s.position topic) partition (some (s.fetch topic partition + 1)))
    pending := Function.update s.pending topic
      (s.pending topic ++ (payload.toList.map fun b => ⟨partition, s.fetch topic partition, b⟩)) }

theorem Inv.taken (h : Inv c s) {message : Option (List Byte)}
    (hmsg : (s.log topic partition)[s.fetch topic partition]? = some message) :
    Inv c (Kafka.taken s topic partition message) := by
  have hpend : ∀ t m, m ∈ s.pending t → m ∈ (Kafka.taken s topic partition message).pending t := by
    intro t m hm
    by_cases ht : t = topic
    · subst ht
      simp [Kafka.taken, hm]
    · simpa [Kafka.taken, update_of_ne ht] using hm
  refine ⟨h.cache, ?_, ?_, ?_, ?_, h.below⟩
  · intro t p
    simp only [Kafka.taken, update_apply]
    split
    next heq =>
      obtain ⟨rfl, rfl⟩ := heq
      exact (List.getElem?_eq_some_iff.1 hmsg).1
    next heq => exact h.fetchLe t p
  · intro t p
    simp only [Kafka.taken, update_apply]
    split
    next heq =>
      obtain ⟨rfl, rfl⟩ := heq
      exact Nat.le_succ_of_le (h.committedLe t p)
    next heq => exact h.committedLe t p
  · intro t p k hk
    simp only [Kafka.taken, update_apply] at hk ⊢
    split at hk
    next heq =>
      cases hk
      simp [heq]
    next heq =>
      rw [if_neg heq]
      exact h.positionLe t p k hk
  · intro t table htarget p offset payload hlt hmsg' hne
    simp only [Kafka.taken, update_apply] at hlt
    by_cases hold : offset < s.fetch t p
    · obtain hst | hmem := h.held t table htarget p offset payload hold hmsg' hne
      · exact .inl hst
      · exact .inr (hpend t _ hmem)
    · -- the message that has just arrived
      split at hlt
      next heq =>
        obtain ⟨rfl, rfl⟩ := heq
        obtain rfl : offset = s.fetch t p := by omega
        have heq : some message = some (some payload) := hmsg.symm.trans hmsg'
        simp only [Option.some.injEq] at heq
        subst heq
        exact .inr (by simp [Kafka.taken])
      next heq => exact absurd hlt hold

theorem receive_eq (message : Option (List Byte)) : s.receive c topic partition message o =
      if message ≠ none ∧ c.batchSize ≤ ((taken s topic partition message).pending topic).length then
        (taken s topic partition message).flushTopic c topic o
      else taken s topic partition message := by
  cases message with
  | none | some payload => simp [World.receive, taken]

theorem Inv.step (h : Inv c s) {a : Action} (hkeeps : Keeps c s a) (hs : step c s a = some s') : Inv c s' := by
  cases a with
  | produce topic partition message =>
    cases hs
    exact h.produce message
  | deliver topic partition o =>
    simp only [Kafka.step] at hs
    split at hs
    · obtain ⟨message, hmsg, rfl⟩ := Option.map_eq_some_iff.1 hs
      rw [receive_eq]
      split
      next hfull =>
        obtain ⟨hsome, hlen⟩ := hfull
        obtain ⟨payload, rfl⟩ := Option.ne_none_iff_exists'.1 hsome
        refine (h.taken hmsg).flushTopic ?_
        have hpend : (Kafka.taken s topic partition (some payload)).pending topic =
            s.pending topic ++ [⟨partition, s.fetch topic partition, payload⟩] := by
          simp [Kafka.taken]
        rw [hpend] at hlen ⊢
        exact hkeeps topic _ o (by simpa [flushed, hmsg] using hlen)
      next hfull => exact h.taken hmsg
    · simp at hs
  | flush topic o =>
    simp only [Kafka.step] at hs
    split at hs
    · simp at hs
    · cases hs
      exact h.flushTopic (hkeeps topic _ o rfl)
  | commitStaged i =>
    obtain ⟨e, -, rfl⟩ := Option.map_eq_some_iff.1 hs
    have hsub : s.extents ⊆ s.extents ++ [e] := subset_append_left _ _
    refine ⟨h.cache, h.fetchLe, h.committedLe, h.positionLe, ?_, ?_⟩
    · intro t table htarget p offset payload hlt hmsg hne
      exact (h.held t table htarget p offset payload hlt hmsg hne).imp_left (·.mono hsub)
    · intro t table htarget p offset payload hlt hmsg hne
      exact (h.below t table htarget p offset payload hlt hmsg hne).mono hsub
  | restart assignment =>
    cases hs
    refine ⟨fun _ _ hc => by simp at hc, ?_, fun t p => Nat.le_refl _, fun _ _ _ hp => by simp at hp, ?_, h.below⟩
    · exact fun t p => le_trans (h.committedLe t p) (h.fetchLe t p)
    · intro t table htarget p offset payload hlt hmsg hne
      exact .inl (h.below t table htarget p offset payload hlt hmsg hne)

/-- **Over every run whose flushes keep what they flush, ingest is at least once.** -/
theorem atLeastOnce_of_keeps (c : Setup S R) {s : World S R} (h : Runs.Reach (step c) (Keeps c) World.init s) :
    AtLeastOnce c s :=
  (h.inv inv_init fun _ _ _ hinv hkeeps hs => hinv.step hkeeps hs).below

end Runs

/-! #### A topic of small objects -/

/-- What the parser makes of a line `{"n":d}` for a table with the one column `n`, and of a blank one; there are no
other well-formed lines below. -/
def lineRow (line : List Byte) : Option (List ℕ) :=
  match line with
  | [] => some []
  | [123, 34, 110, 34, 58, d, 125] => if 48 ≤ d.toNat ∧ d.toNat ≤ 57 then some [d.toNat - 48] else none
  | _ => none

def splitLines : List Byte → List Byte → List (List Byte)
  | line, [] => [line]
  | line, b :: rest => if b = 10 then line :: splitLines [] rest else splitLines (line ++ [b]) rest

def parseNumbers (_ : Unit) (text : List Byte) : Option (List ℕ) := do
  let rows ← (splitLines [] text).mapM lineRow
  return rows.flatten

def oneTopic : Setup Unit ℕ where
  topics := [⟨"orders", "default", "orders"⟩]
  batchSize := 2
  mode := .direct
  tables _ _ := some ⟨1, ()⟩
  parseNdjson := parseNumbers

/-- `{"n":d}` -/
def number (d : ℕ) : List Byte := [123, 34, 110, 34, 58, (d + 48).toUInt8, 125]

def good : Outcome := ⟨true, .acked, true⟩

/-- Two messages, delivered and flushed together. -/
theorem atLeastOnce_of_keeps_two : ∃ s, Runs.Reach (step oneTopic) (Keeps oneTopic) World.init s ∧
    s.committed "orders" 0 = 2 ∧ AtLeastOnce oneTopic s := by
  have h₀ : Runs.Reach (step oneTopic) (Keeps oneTopic) World.init World.init := .init
  have h₁ := h₀.step (Action.restart [("orders", 0)]) (fun _ _ _ h => by cases h) rfl
  have h₂ := h₁.step (Action.produce "orders" 0 (some (number 1))) (fun _ _ _ h => by cases h) rfl
  have h₃ := h₂.step (Action.produce "orders" 0 (some (number 2))) (fun _ _ _ h => by cases h) rfl
  have h₄ := h₃.step (Action.deliver "orders" 0 good) (fun _ _ _ h => by cases h) rfl
  have h₅ := h₄.step (Action.deliver "orders" 0 good) (fun topic bucket o h => by
    have heq : some ("orders", ([⟨0, 0, number 1⟩, ⟨0, 1, number 2⟩] : List Delivered), good) =
        some (topic, bucket, o) := h
    cases heq
    intro table htable
    cases htable
    exact .inr ⟨.inr rfl, by decide, [1, 2], rfl, List.Subperm.refl _⟩) rfl
  exact ⟨_, h₅, rfl, atLeastOnce_of_keeps oneTopic h₅⟩

/-- A message shares its buffer with a malformed one: the buffer is dropped, and the next flush commits past both. -/
theorem loses_neighbour : ∃ s, Runs.Reach (step oneTopic) Runs.Free World.init s ∧ ¬AtLeastOnce oneTopic s := by
  have h₀ : Runs.Reach (step oneTopic) Runs.Free World.init World.init := .init
  have h₈ := h₀.run [.restart [("orders", 0)], .produce "orders" 0 (some (number 1)),
    .produce "orders" 0 (some [110, 111]), .produce "orders" 0 (some (number 2)),
    .deliver "orders" 0 good, .deliver "orders" 0 good, .deliver "orders" 0 good,
    .flush "orders" good] rfl
  refine ⟨_, h₈, fun h => ?_⟩
  have hstored := h "orders" ⟨1, ()⟩ rfl 0 0 (number 1) (by decide) rfl (by decide)
  obtain ⟨e, he, -, -, hm, -⟩ := hstored
  have hext : e ∈ [(⟨"orders", 1, [2], [⟨0, 2, number 2⟩]⟩ : Extent ℕ)] := he
  obtain rfl := mem_singleton.1 hext
  revert hm
  decide

end Kafka
