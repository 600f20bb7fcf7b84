/-
**The read cache of the object store.**

`CachingObjectStore` wraps an object store and keeps the results of reads in a byte-bounded LRU: a
map from path and range to the result, with an index by recency and an index by path.
-/

import Mathlib.Data.List.AList
import Pensieve.Runs
import Pensieve.WriteLog

namespace ObjectCache

open List

/-! ### Reads -/

abbrev Path := String
abbrev Bytes := List UInt8

inductive GetRange where
  | bounded (start stop : Nat)
  | offset (start : Nat)
  | suffix (len : Nat)
  deriving DecidableEq

structure GetOptions where
  ifMatch : Option String
  ifNoneMatch : Option String
  ifModifiedSince : Option Int
  ifUnmodifiedSince : Option Int
  range : Option GetRange
  version : Option String
  head : Bool
  deriving DecidableEq

/-- What an entry of the cache is a read of: the whole object, a range of it, its metadata. -/
inductive RangeKey where
  | full
  | bounded (start stop : Nat)
  | head
  deriving DecidableEq

/-- An object, over types `M` of metadata and `A` of attributes. -/
structure Stored (M A : Type) where
  bytes : Bytes
  metadata : M
  attributes : A
  deriving DecidableEq

/-- The result of a read; that of `head` has no bytes. -/
structure GetResult (M A : Type) where
  bytes : Bytes
  metadata : M
  attributes : A
  range : Nat × Nat
  deriving DecidableEq

/-- `get_opts` and `head`. -/
inductive Read where
  | get (options : GetOptions)
  | head
  deriving DecidableEq

def rangeKey : Option GetRange → Option RangeKey
  | none => some .full
  | some (.bounded start stop) => some (.bounded start stop)
  | some (.offset _) => none
  | some (.suffix _) => none

def cacheable (o : GetOptions) : Bool :=
  o.ifMatch.isNone && o.ifNoneMatch.isNone && o.ifModifiedSince.isNone &&
    o.ifUnmodifiedSince.isNone && o.version.isNone && !o.head

def Read.key : Read → Option RangeKey
  | .get options => if cacheable options then rangeKey options.range else none
  | .head => some .head

def RangeKey.read : RangeKey → Read
  | .full => .get ⟨none, none, none, none, none, none, false⟩
  | .bounded start stop => .get ⟨none, none, none, none, some (.bounded start stop), none, false⟩
  | .head => .head

theorem Read.eq_of_key {r : Read} {rk : RangeKey} (h : r.key = some rk) : r = rk.read := by
  cases r with
  | head =>
    cases h
    rfl
  | get o =>
    obtain ⟨ifMatch, ifNoneMatch, ifModifiedSince, ifUnmodifiedSince, range, version, head⟩ := o
    simp only [Read.key] at h
    split at h
    · rename_i hc
      simp only [cacheable, Bool.and_eq_true, Option.isNone_iff_eq_none, Bool.not_eq_true'] at hc
      obtain ⟨⟨⟨⟨⟨rfl, rfl⟩, rfl⟩, rfl⟩, rfl⟩, rfl⟩ := hc
      rcases range with _ | ⟨_ | _ | _⟩ <;> cases h <;> rfl
    · cases h

/-! ### The cache -/

variable {M A E : Type}

structure Entry (M A : Type) where
  result : GetResult M A
  tick : Nat
  nbytes : Nat
  deriving DecidableEq

abbrev Key := Path × RangeKey

/-- The byte-bounded LRU: the reads, their keys by recency, the keys of each path. -/
structure Lru (M A : Type) where
  map : AList fun _ : Key => Entry M A
  byTick : AList fun _ : Nat => Key
  byPath : AList fun _ : Path => List RangeKey
  totalBytes : Nat
  maxTotal : Nat
  tick : Nat
  hits : Nat
  misses : Nat

def entryOverhead : Nat := 256

namespace Lru

def new (maxTotal : Nat) : Lru M A := ⟨∅, ∅, ∅, 0, maxTotal, 0, 0, 0⟩

def get (l : Lru M A) (key : Key) : Option (Entry M A) × Lru M A :=
  match l.map.lookup key with
  | none => (none, { l with misses := l.misses + 1 })
  | some e =>
    let e' := { e with tick := l.tick + 1 }
    (some e', { l with
        byTick := (l.byTick.erase e.tick).insert (l.tick + 1) key
        tick := l.tick + 1
        map := l.map.insert key e'
        hits := l.hits + 1 })

def unindex (byPath : AList fun _ : Path => List RangeKey) (key : Key) : AList fun _ : Path => List RangeKey :=
  match byPath.lookup key.1 with
  | none => byPath
  | some v =>
    let v' := v.filter (· ≠ key.2)
    if v'.isEmpty then byPath.erase key.1 else byPath.insert key.1 v'

def removeKey (l : Lru M A) (key : Key) : Lru M A :=
  match l.map.lookup key with
  | none => l
  | some e =>
    { l with
      map := l.map.erase key
      totalBytes := l.totalBytes - e.nbytes
      byTick := l.byTick.erase e.tick
      byPath := unindex l.byPath key }

/-- The loop at the end of an insertion: the least recently used entries go until the budget is
kept.  Each round removes one of them, so there are at most as many rounds as entries. -/
def evictOver : Nat → Lru M A → Lru M A
  | 0, l => l
  | fuel + 1, l =>
    if l.totalBytes ≤ l.maxTotal then l
    else match l.byTick.keys.min?.bind l.byTick.lookup with
      | none => l
      | some victim => evictOver fuel (l.removeKey victim)

def push (l : Lru M A) (key : Key) (result : GetResult M A) : Lru M A :=
  let nbytes := max result.bytes.length entryOverhead
  { l with
    tick := l.tick + 1
    map := l.map.insert key ⟨result, l.tick + 1, nbytes⟩
    byTick := l.byTick.insert (l.tick + 1) key
    byPath := l.byPath.insert key.1 ((l.byPath.lookup key.1).getD [] ++ [key.2])
    totalBytes := l.totalBytes + nbytes }

def insert (l : Lru M A) (key : Key) (result : GetResult M A) : Lru M A :=
  if l.maxTotal < max result.bytes.length entryOverhead then l
  else
    let l' := (l.removeKey key).push key result
    evictOver l'.byTick.keys.length l'

/-- One key of the path on the way through `evictPath`. -/
def dropKey (path : Path) (l : Lru M A) (rk : RangeKey) : Lru M A :=
  match l.map.lookup (path, rk) with
  | none => l
  | some e =>
    { l with
      map := l.map.erase (path, rk)
      totalBytes := l.totalBytes - e.nbytes
      byTick := l.byTick.erase e.tick }

def evictPath (l : Lru M A) (path : Path) : Lru M A :=
  match l.byPath.lookup path with
  | none => l
  | some rks => rks.foldl (dropKey path) { l with byPath := l.byPath.erase path }

end Lru

/-! ### What is cached, and the index by path -/

namespace Lru

variable {l : Lru M A} {key k : Key} {path : Path} {rk : RangeKey} {e : Entry M A}
  {result : GetResult M A}

def Indexed (l : Lru M A) : Prop :=
  ∀ path rk e, l.map.lookup (path, rk) = some e → ∃ v, l.byPath.lookup path = some v ∧ rk ∈ v

theorem indexed_new (maxTotal : Nat) : (new maxTotal : Lru M A).Indexed := by
  intro path rk e h
  cases h

theorem lookup_get (h : (l.get key).2.map.lookup k = some e) :
    ∃ e₀, l.map.lookup k = some e₀ ∧ e₀.result = e.result := by
  unfold get at h
  cases hl : l.map.lookup key with
  | none =>
    rw [hl] at h
    exact ⟨e, h, rfl⟩
  | some e₀ =>
    rw [hl] at h
    by_cases hk : k = key
    · subst hk
      rw [AList.lookup_insert] at h
      cases h
      exact ⟨e₀, hl, rfl⟩
    · rw [AList.lookup_insert_ne hk] at h
      exact ⟨e, h, rfl⟩

theorem get_eq_some (h : (l.get key).1 = some e) : ∃ e₀, l.map.lookup key = some e₀ ∧ e₀.result = e.result := by
  unfold get at h
  cases hl : l.map.lookup key with
  | none =>
    rw [hl] at h
    cases h
  | some e₀ =>
    rw [hl] at h
    cases h
    exact ⟨e₀, rfl, rfl⟩

theorem byPath_get (l : Lru M A) (key : Key) : (l.get key).2.byPath = l.byPath := by
  unfold get
  split <;> rfl

theorem indexed_get (h : l.Indexed) (key : Key) : (l.get key).2.Indexed := by
  intro path rk e he
  obtain ⟨e₀, he₀, -⟩ := lookup_get he
  rw [byPath_get]
  exact h path rk e₀ he₀

theorem lookup_removeKey (h : (l.removeKey key).map.lookup k = some e) : k ≠ key ∧ l.map.lookup k = some e := by
  unfold removeKey at h
  by_cases hk : k = key
  · subst hk
    cases hl : l.map.lookup k with
    | none | some e₀ => simp [hl] at h
  · refine ⟨hk, ?_⟩
    cases hl : l.map.lookup key with
    | none =>
      rw [hl] at h
      exact h
    | some e₀ =>
      rw [hl] at h
      simpa only [AList.lookup_erase_ne hk] using h

theorem mem_unindex {byPath : AList fun _ : Path => List RangeKey} {v : List RangeKey}
    (hv : byPath.lookup path = some v) (hrk : rk ∈ v) (hne : (path, rk) ≠ key) :
    ∃ v', (unindex byPath key).lookup path = some v' ∧ rk ∈ v' := by
  unfold unindex
  by_cases hp : path = key.1
  · subst hp
    have hkeep : rk ∈ v.filter (· ≠ key.2) := by
      refine mem_filter.mpr ⟨hrk, decide_eq_true fun hrk2 => hne ?_⟩
      rw [hrk2]
    rw [hv]
    simp only
    rw [if_neg (by simpa [List.isEmpty_iff] using ne_nil_of_mem hkeep)]
    exact ⟨_, AList.lookup_insert _, hkeep⟩
  · cases hl : byPath.lookup key.1 with
    | none => exact ⟨v, hv, hrk⟩
    | some u =>
      simp only
      split
      · exact ⟨v, by rw [AList.lookup_erase_ne hp, hv], hrk⟩
      · exact ⟨v, by rw [AList.lookup_insert_ne hp, hv], hrk⟩

theorem indexed_removeKey (h : l.Indexed) (key : Key) : (l.removeKey key).Indexed := by
  intro path rk e he
  obtain ⟨hne, he₀⟩ := lookup_removeKey he
  obtain ⟨v, hv, hrk⟩ := h path rk e he₀
  unfold removeKey
  cases l.map.lookup key with
  | none => exact ⟨v, hv, hrk⟩
  | some e₁ => exact mem_unindex hv hrk hne

theorem lookup_push (h : (l.push key result).map.lookup k = some e) :
    (k = key ∧ e.result = result) ∨ l.map.lookup k = some e := by
  simp only [push] at h
  by_cases hk : k = key
  · subst hk
    rw [AList.lookup_insert] at h
    cases h
    exact .inl ⟨rfl, rfl⟩
  · rw [AList.lookup_insert_ne hk] at h
    exact .inr h

theorem indexed_push (h : l.Indexed) (key : Key) (result : GetResult M A) : (l.push key result).Indexed := by
  intro path rk e he
  simp only [push]
  by_cases hp : path = key.1
  · subst hp
    refine ⟨_, AList.lookup_insert _, ?_⟩
    rcases lookup_push he with ⟨hk, -⟩ | he
    · rw [← hk]
      simp
    · obtain ⟨v, hv, hrk⟩ := h _ rk e he
      simp [hv, hrk]
  · rw [AList.lookup_insert_ne hp]
    rcases lookup_push he with ⟨hk, -⟩ | he
    · exact absurd (by rw [← hk]) hp
    · exact h path rk e he

theorem lookup_evictOver {fuel : Nat} (h : (evictOver fuel l).map.lookup k = some e) : l.map.lookup k = some e := by
  induction fuel generalizing l with
  | zero => exact h
  | succ fuel ih =>
    unfold evictOver at h
    split at h
    · exact h
    · split at h
      · exact h
      · exact (lookup_removeKey (ih h)).2

theorem indexed_evictOver (h : l.Indexed) (fuel : Nat) : (evictOver fuel l).Indexed := by
  induction fuel generalizing l with
  | zero => exact h
  | succ fuel ih =>
    unfold evictOver
    split
    · exact h
    · split
      · exact h
      · exact ih (indexed_removeKey h _)

theorem lookup_insert_cases (h : (l.insert key result).map.lookup k = some e) :
    (k = key ∧ e.result = result) ∨ l.map.lookup k = some e := by
  unfold insert at h
  split at h
  · exact .inr h
  · rcases lookup_push (lookup_evictOver h) with hnew | hold
    · exact .inl hnew
    · exact .inr (lookup_removeKey hold).2

theorem indexed_insert (h : l.Indexed) (key : Key) (result : GetResult M A) : (l.insert key result).Indexed := by
  unfold insert
  split
  · exact h
  · exact indexed_evictOver (indexed_push (indexed_removeKey h key) key result) _

theorem lookup_dropKey (h : (l.dropKey path rk).map.lookup k = some e) : k ≠ (path, rk) ∧ l.map.lookup k = some e := by
  unfold dropKey at h
  by_cases hk : k = (path, rk)
  · subst hk
    cases hl : l.map.lookup (path, rk) with
    | none | some e₀ => simp [hl] at h
  · refine ⟨hk, ?_⟩
    cases hl : l.map.lookup (path, rk) with
    | none =>
      rw [hl] at h
      exact h
    | some e₀ =>
      rw [hl] at h
      simpa only [AList.lookup_erase_ne hk] using h

theorem lookup_foldl_dropKey {rks : List RangeKey}
    (h : (rks.foldl (dropKey path) l).map.lookup k = some e) :
    (∀ rk ∈ rks, k ≠ (path, rk)) ∧ l.map.lookup k = some e := by
  induction rks generalizing l with
  | nil => exact ⟨by simp, h⟩
  | cons rk rks ih =>
    obtain ⟨hrest, hl⟩ := ih h
    obtain ⟨hne, hl⟩ := lookup_dropKey hl
    exact ⟨forall_mem_cons.mpr ⟨hne, hrest⟩, hl⟩

theorem byPath_dropKey (l : Lru M A) (path : Path) (rk : RangeKey) : (l.dropKey path rk).byPath = l.byPath := by
  unfold dropKey
  split <;> rfl

theorem byPath_foldl_dropKey (l : Lru M A) (path : Path) (rks : List RangeKey) :
    (rks.foldl (dropKey path) l).byPath = l.byPath := by
  induction rks generalizing l with
  | nil => rfl
  | cons rk rks ih => rw [foldl_cons, ih, byPath_dropKey]

theorem lookup_evictPath (hi : l.Indexed) (h : (l.evictPath path).map.lookup k = some e) :
    k.1 ≠ path ∧ l.map.lookup k = some e := by
  unfold evictPath at h
  cases hv : l.byPath.lookup path with
  | none =>
    rw [hv] at h
    refine ⟨fun hp => ?_, h⟩
    obtain ⟨v, hv', -⟩ := hi k.1 k.2 e h
    rw [hp, hv] at hv'
    cases hv'
  | some rks =>
    rw [hv] at h
    obtain ⟨hne, hl⟩ := lookup_foldl_dropKey h
    refine ⟨fun hp => ?_, hl⟩
    -- the index lists the key's range, so the fold has dropped it
    obtain ⟨v, hv', hrk⟩ := hi k.1 k.2 e hl
    rw [hp, hv] at hv'
    cases hv'
    exact hne k.2 hrk (by rw [← hp])

theorem indexed_evictPath (h : l.Indexed) (path : Path) : (l.evictPath path).Indexed := by
  intro p rk e he
  obtain ⟨hne, hl⟩ := lookup_evictPath h he
  obtain ⟨v, hv, hrk⟩ := h p rk e hl
  refine ⟨v, ?_, hrk⟩
  unfold evictPath
  cases l.byPath.lookup path with
  | none => exact hv
  | some rks => rw [byPath_foldl_dropKey, AList.lookup_erase_ne hne, hv]

end Lru

/-! ### The steps of readers and writers -/

/-- The inner store: its answers to reads, from the object at the path. -/
structure InnerStore (M A E : Type) where
  get : GetOptions → Option (Stored M A) → Except E (GetResult M A)
  head : Option (Stored M A) → Except E M
  get_none : ∀ options, ∃ e, get options none = .error e
  head_none : ∃ e, head none = .error e

def InnerStore.read [Inhabited A] (store : InnerStore M A E) (r : Read)
    (c : Option (Stored M A)) : Except E (GetResult M A) :=
  match r with
  | .get options => store.get options c
  | .head => (store.head c).map fun metadata => ⟨[], metadata, default, (0, 0)⟩

def admits (maxObject : Nat) (r : Read) (result : GetResult M A) : Bool :=
  match r with
  | .get _ => result.range.2 - result.range.1 ≤ maxObject
  | .head => true

/-- The writes; `put` comes with the object that the store makes of the payload. -/
inductive Write (M A : Type) where
  | put (path : Path) (object : Stored M A)
  | delete (path : Path)
  | copy (src dst : Path)
  | copyIfNotExists (src dst : Path)

def Write.path : Write M A → Path
  | .put path _ => path
  | .delete path => path
  | .copy _ dst => dst
  | .copyIfNotExists _ dst => dst

/-- How an inner call of a write ends: it may fail and have taken effect nevertheless. -/
inductive Outcome where
  | ok
  | failed
  | failedApplied
  deriving DecidableEq

def Write.content (log : List (Path × Option (Stored M A))) : Write M A → Option (Option (Stored M A))
  | .put _ object => some (some object)
  | .delete _ => some none
  | .copy src _ => (WriteLog.contents src log).map some
  | .copyIfNotExists src dst =>
    if (WriteLog.contents dst log).isSome then none else (WriteLog.contents src log).map some

/-- `put_opts` and the copies evict after success only, `delete` always. -/
def Write.evicts (ok : Bool) : Write M A → Bool
  | .delete _ => true
  | _ => ok

/-- A write that has returned: its path, and its position among all writes. -/
structure Returned where
  path : Path
  index : Nat
  deriving DecidableEq

/-- A read that has been answered: `none` if the inner store failed.  `before` are the writes that
had returned when it started. -/
structure Answer (M A E : Type) where
  path : Path
  read : Read
  before : List Returned
  result : Option (Except E (GetResult M A))
  deriving DecidableEq

inductive Proc (M A E : Type) where
  | fetching (path : Path) (read : Read) (before : List Returned)
  /-- A read that has the result, as of the first `moment` writes, and is about to cache it. -/
  | inserting (path : Path) (read : Read) (key : RangeKey) (before : List Returned) (moment : Nat)
      (result : GetResult M A)
  /-- A write that is about to evict; `index` is its position if it took effect. -/
  | evicting (path : Path) (index : Option Nat)

/-- All writes to the inner store, the cache, the callers, the writes that have returned and the
reads that have been answered. -/
structure St (M A E : Type) where
  log : List (Path × Option (Stored M A))
  lru : Lru M A
  procs : Nat → Option (Proc M A E)
  returned : List Returned
  answers : List (Answer M A E)

/-- A step of the caller `i`: it starts a read with the lookup, or a write with the inner call; or
it takes its next step.  `storeFails` says that the inner store fails on the read. -/
inductive Action (M A : Type) where
  | lookup (i : Nat) (path : Path) (read : Read)
  | fetch (i : Nat) (storeFails : Bool)
  | insert (i : Nat)
  | write (i : Nat) (w : Write M A) (o : Outcome)
  | evict (i : Nat)

section Steps

variable [Inhabited A] (store : InnerStore M A E) (maxObject : Nat)

def lookupStep (s : St M A E) (i : Nat) (path : Path) (read : Read) : St M A E :=
  match read.key with
  | none => { s with procs := Function.update s.procs i (some (.fetching path read s.returned)) }
  | some rk =>
    let (hit, lru) := s.lru.get (path, rk)
    match hit with
    | some e =>
      { s with
        lru := lru
        answers := s.answers ++ [⟨path, read, s.returned, some (.ok e.result)⟩] }
    | none =>
      { s with
        lru := lru
        procs := Function.update s.procs i (some (.fetching path read s.returned)) }

def fetchStep (s : St M A E) (i : Nat) (path : Path) (read : Read) (before : List Returned)
    (storeFails : Bool) : St M A E :=
  let answer (result : Option (Except E (GetResult M A))) : St M A E :=
    { s with
      procs := Function.update s.procs i none
      answers := s.answers ++ [⟨path, read, before, result⟩] }
  if storeFails then answer none
  else match store.read read (WriteLog.contents path s.log), read.key with
    | .error e, _ => answer (some (.error e))
    | .ok result, none => answer (some (.ok result))
    | .ok result, some rk =>
      if admits maxObject read result then
        { s with
          procs := Function.update s.procs i
            (some (.inserting path read rk before s.log.length result)) }
      else answer (some (.ok result))

def insertStep (s : St M A E) (i : Nat) (path : Path) (read : Read) (rk : RangeKey)
    (before : List Returned) (result : GetResult M A) : St M A E :=
  { s with
    lru := s.lru.insert (path, rk) result
    procs := Function.update s.procs i none
    answers := s.answers ++ [⟨path, read, before, some (.ok result)⟩] }

def writeStep (s : St M A E) (i : Nat) (w : Write M A) (o : Outcome) : St M A E :=
  let applied := if o = .failed then none else w.content s.log
  { s with
    log := s.log ++ (applied.map fun c => (w.path, c)).toList
    procs :=
      if w.evicts (o = .ok && applied.isSome) then
        Function.update s.procs i (some (.evicting w.path (applied.map fun _ => s.log.length)))
      else s.procs }

def evictStep (s : St M A E) (i : Nat) (path : Path) (index : Option Nat) : St M A E :=
  { s with
    lru := s.lru.evictPath path
    procs := Function.update s.procs i none
    returned := (index.map fun n => ⟨path, n⟩).toList ++ s.returned }

/-- **One step.** -/
def step (s : St M A E) : Action M A → Option (St M A E)
  | .lookup i path read => if (s.procs i).isNone then some (lookupStep s i path read) else none
  | .fetch i storeFails =>
    match s.procs i with
    | some (.fetching path read before) =>
      some (fetchStep store maxObject s i path read before storeFails)
    | _ => none
  | .insert i =>
    match s.procs i with
    | some (.inserting path read rk before _ result) =>
      some (insertStep s i path read rk before result)
    | _ => none
  | .write i w o => if (s.procs i).isNone then some (writeStep s i w o) else none
  | .evict i =>
    match s.procs i with
    | some (.evicting path index) => some (evictStep s i path index)
    | _ => none

end Steps

def St.init (log : List (Path × Option (Stored M A))) (maxTotal : Nat) : St M A E :=
  ⟨log, Lru.new (max maxTotal 1), fun _ => none, [], []⟩

end ObjectCache
