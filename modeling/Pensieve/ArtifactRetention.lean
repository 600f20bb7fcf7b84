/-
**Retention of artifacts.**

A capture registers an artifact, and puts its blob afterwards: a registration that is not followed
by its blob is found by the next capture, and a blob without a row would never be deleted.
-/

import Pensieve.ArtifactCatalog
import Pensieve.Runs

namespace Artifacts

open List
open Catalog (TenantId Uuid)

/-! ### Captures and ticks -/

/-- Where a tick stands: it restamps, it has swept what is expired, it deletes the blobs of candidates. -/
inductive Tick where
  | stamping (now : Instant)
  | swept (now : Instant)
  | purging (todo : List (Uuid × Text)) (deletedIds : List Uuid)
  deriving DecidableEq

def Tick.todo : Tick → List (Uuid × Text)
  | .purging todo _ => todo
  | _ => []

def Tick.now : Tick → Option Instant
  | .stamping now => some now
  | .swept now => some now
  | .purging _ _ => none

/-- What was said of a row when it was last registered: the instant, and the days that it was to be kept, as long as
the settings say so. -/
structure Pledge where
  id : Uuid
  tenantId : TenantId
  source : Text
  artifactClass : Text
  at' : Instant
  days : Option UInt32
  deriving DecidableEq

def Pledge.review (tenant : TenantId) (settings : RetentionSettings) (p : Pledge) : Pledge :=
  { p with
    days := if p.tenantId = tenant ∧ settings.artifactDays p.source p.artifactClass ≠ p.days then none else p.days }

/-- The clock, the catalog, the object store and the ticks under way, the paths that are registered and not put yet; and
what was seen: the last registrations, the rows whose registration found no blob and was not followed by one, and the
rows that were registered while a purge had their blob on its list. -/
structure Retention (Key : Type) where
  now : Instant
  settings : List (TenantId × RetentionSettings)
  rows : List ArtifactRow
  blobs : List Key
  ticks : List (ℕ × Tick)
  pending : List Text
  pledges : List Pledge
  unput : List Uuid
  overtaken : List Uuid
  deriving DecidableEq

section Step

variable {Key : Type} [DecidableEq Key] (key : Text → Key) (grace : ℤ)

def Retention.init (now : Instant) : Retention Key := ⟨now, [], [], [], [], [], [], [], []⟩

/-- `load_retention_settings` -/
def Retention.load (s : Retention Key) (tenant : TenantId) : RetentionSettings := (s.settings.lookup tenant).getD default

def Retention.putTick (s : Retention Key) (i : ℕ) (tick : Tick) : Retention Key :=
  { s with ticks := (i, tick) :: s.ticks.filter (·.1 ≠ i) }

def Retention.dropTick (s : Retention Key) (i : ℕ) : Retention Key := { s with ticks := s.ticks.filter (·.1 ≠ i) }

def Retention.held (s : Retention Key) (k : Key) : Bool := s.ticks.any fun t => t.2.todo.any fun c => key c.2 = k

def Retention.idsOf (s : Retention Key) (k : Key) : List Uuid :=
  (s.rows.filter fun row => key row.objectPath = k).map ArtifactRow.id

inductive Action where
  | advance (later : Instant)
  | saveSettings (tenant : TenantId) (settings : RetentionSettings)
  | register (rec : ArtifactRecord) (fresh : Uuid)
  | put (path : Text)
  | putFails (path : Text)
  | beginTick (i : ℕ)
  | restamp (i : ℕ) (tenant : TenantId) (combos : List (Text × Text))
  | softDelete (i : ℕ)
  | listCandidates (i : ℕ)
  | deleteBlob (i : ℕ) (fails : Bool)
  | deleteRows (i : ℕ)
  | endTick (i : ℕ)

/-- `register_artifact` -/
def Retention.register (s : Retention Key) (rec : ArtifactRecord) (fresh : Uuid) : Retention Key :=
  let (rows, id) := registerArtifact s.rows rec fresh s.now
  let days := (s.load rec.tenantId).artifactDays rec.source rec.artifactClass
  { s with
    rows := rows
    pending := rec.objectPath :: s.pending
    pledges := ⟨id, rec.tenantId, rec.source, rec.artifactClass, s.now, days⟩ :: s.pledges.filter (·.id ≠ id)
    unput := if key rec.objectPath ∈ s.blobs then s.unput else id :: s.unput
    overtaken := if s.held key (key rec.objectPath) then id :: s.overtaken else s.overtaken }

/-- `put_artifact` -/
def Retention.put (s : Retention Key) (path : Text) : Retention Key :=
  { s with
    blobs := key path :: s.blobs
    pending := s.pending.erase path
    unput := s.unput.filter fun id => id ∉ s.idsOf key (key path)
    overtaken :=
      if s.held key (key path) then s.overtaken else s.overtaken.filter fun id => id ∉ s.idsOf key (key path) }

/-- **One statement**. -/
def step (s : Retention Key) : Action → Option (Retention Key)
  | .advance later => if s.now ≤ later then some { s with now := later } else none
  | .saveSettings tenant settings =>
    if settings.hasZero then none
    else some { s with
      settings := (tenant, settings) :: s.settings
      pledges := s.pledges.map (.review tenant settings) }
  | .register rec fresh =>
    if fresh ∈ s.pledges.map Pledge.id then none else some (s.register key rec fresh)
  | .put path => if path ∈ s.pending then some (s.put key path) else none
  | .putFails path => if path ∈ s.pending then some { s with pending := s.pending.erase path } else none
  | .beginTick i => if (s.ticks.lookup i).isSome then none else some (s.putTick i (.stamping s.now))
  | .restamp i tenant combos =>
    match s.ticks.lookup i, s.settings.lookup tenant with
    | some (.stamping _), some settings =>
      if combos.Nodup ∧ combos ⊆ liveCombos s.rows tenant then
        some { s with rows := restampArtifactExpiry tenant settings combos s.rows }
      else none
    | _, _ => none
  | .softDelete i =>
    match s.ticks.lookup i with
    | some (.stamping now) =>
      some ({ s with rows := (softDeleteExpiredArtifacts s.rows now).1 }.putTick i (.swept now))
    | _ => none
  | .listCandidates i =>
    match s.ticks.lookup i with
    | some (.swept now) => some (s.putTick i (.purging (artifactGcCandidates s.rows (now - grace)) []))
    | _ => none
  | .deleteBlob i fails =>
    match s.ticks.lookup i with
    | some (.purging ((id, path) :: todo) deletedIds) =>
      if fails then some (s.putTick i (.purging todo deletedIds))
      else
        -- a blob that is not there counts as deleted
        some ({ s with blobs := s.blobs.filter (· ≠ key path) }.putTick i (.purging todo (deletedIds ++ [id])))
    | _ => none
  | .deleteRows i =>
    match s.ticks.lookup i with
    | some (.purging [] deletedIds) => some ({ s with rows := deleteArtifactRows s.rows deletedIds }.dropTick i)
    | _ => none
  | .endTick i => some (s.dropTick i)

/-! ### What a worker keeps to -/

/-- **No live artifact is deleted**: a row that is not marked as deleted has its blob, and a row that was last registered
at an instant is not marked before its days are over, as long as the settings stay. -/
structure Retains (s : Retention Key) : Prop where
  blob : ∀ r ∈ s.rows, r.deletedAt = none → key r.objectPath ∈ s.blobs
  kept : ∀ p ∈ s.pledges, ∀ r ∈ s.rows, r.id = p.id → ∀ d, r.deletedAt = some d → ∀ n, p.days = some n →
    due p.at' n ≤ d ∧ d ≤ s.now

/-- **What the worker keeps to**: a row that is not marked as deleted has its blob from the put of its capture on, unless
it was registered while a purge had the blob on its list; and a row that was made at an instant, and not registered
again, is not marked before its days are over, if their number fits. -/
structure Keeps (s : Retention Key) : Prop where
  blob : ∀ r ∈ s.rows, r.deletedAt = none → r.id ∉ s.unput → r.id ∉ s.overtaken → key r.objectPath ∈ s.blobs
  kept : ∀ p ∈ s.pledges, ∀ r ∈ s.rows, r.id = p.id → p.at' = r.createdAt → ∀ d, r.deletedAt = some d →
    ∀ n, p.days = some n → n.toNat < 2 ^ 31 → due p.at' n ≤ d ∧ d ≤ s.now

/-- **What captures keep to**: an artifact is registered without an expiry of its own, and no other artifact has its
blob. -/
def Own (s : Retention Key) : Action → Prop
  | .register rec _ => rec.expiresAt = none ∧ ∀ r ∈ s.rows, key r.objectPath = key rec.objectPath →
      rec.conflicts r = true
  | _ => True

instance (s : Retention Key) : (a : Action) → Decidable (Own key s a)
  | .register rec _ => inferInstanceAs (Decidable (rec.expiresAt = none ∧
      ∀ r ∈ s.rows, key r.objectPath = key rec.objectPath → rec.conflicts r = true))
  | .advance _ | .saveSettings _ _ | .put _ | .putFails _ | .beginTick _ | .restamp _ _ _ | .softDelete _
  | .listCandidates _ | .deleteBlob _ _ | .deleteRows _ | .endTick _ => isTrue trivial

end Step

/-! ### The invariant -/

/-- A row and what was said of it: the row is what was registered, and neither its expiry nor its deletion is before its
days are over. -/
structure Kept (settings : RetentionSettings) (p : Pledge) (r : ArtifactRow) : Prop where
  tenant : p.tenantId = r.tenantId
  source : p.source = r.source
  artifactClass : p.artifactClass = r.artifactClass
  days : ∀ n, p.days = some n → settings.artifactDays p.source p.artifactClass = some n
  expires : p.at' = r.createdAt → ∀ n, p.days = some n → n.toNat < 2 ^ 31 → ∀ e, r.expiresAt = some e → due p.at' n ≤ e
  deleted : p.at' = r.createdAt → ∀ n, p.days = some n → n.toNat < 2 ^ 31 → ∀ d, r.deletedAt = some d → due p.at' n ≤ d

section Inv

variable {Key : Type} [DecidableEq Key] {key : Text → Key} {grace : ℤ} {s s' : Retention Key} {i : ℕ}

structure Inv (key : Text → Key) (s : Retention Key) : Prop where
  ids : (s.rows.map ArtifactRow.id).Nodup
  own : ∀ r ∈ s.rows, ∀ q ∈ s.rows, key r.objectPath = key q.objectPath → r.id = q.id
  known : ∀ r ∈ s.rows, r.id ∈ s.pledges.map Pledge.id
  kept : ∀ p ∈ s.pledges, ∀ r ∈ s.rows, r.id = p.id → Kept (s.load p.tenantId) p r
  past : ∀ r ∈ s.rows, ∀ d, r.deletedAt = some d → d ≤ s.now
  clock : ∀ t ∈ s.ticks, ∀ now, t.2.now = some now → now ≤ s.now
  blob : ∀ r ∈ s.rows, r.deletedAt = none → r.id ∉ s.unput → r.id ∉ s.overtaken → key r.objectPath ∈ s.blobs
  held : ∀ r ∈ s.rows, r.deletedAt = none → s.held key (key r.objectPath) = true → r.id ∈ s.overtaken

theorem Inv.init (now : Instant) : Inv key (Retention.init now) := by
  constructor <;> simp [Retention.init, Retention.held]

theorem Inv.keeps (h : Inv key s) : Keeps key s where
  blob := h.blob
  kept p hp r hr hid hat d hd n hn hfits := ⟨(h.kept p hp r hr hid).deleted hat n hn hfits d hd, h.past r hr d hd⟩

/-! #### Ticks -/

theorem mem_of_lookup {V : Type} {ticks : List (ℕ × V)} {v : V} (h : ticks.lookup i = some v) : (i, v) ∈ ticks := by
  obtain ⟨before, after, heq, -⟩ := lookup_eq_some_iff.1 h
  rw [heq]
  exact mem_append_right _ mem_cons_self

theorem held_eq_true {k : Key} : s.held key k = true ↔ ∃ t ∈ s.ticks, ∃ c ∈ t.2.todo, key c.2 = k := by
  simp only [Retention.held, any_eq_true, decide_eq_true_eq]

theorem Inv.putTick (h : Inv key s) {tick : Tick} (hnow : ∀ now, tick.now = some now → now ≤ s.now)
    (htodo : ∀ c ∈ tick.todo, ∀ r ∈ s.rows, r.deletedAt = none → key c.2 = key r.objectPath → r.id ∈ s.overtaken) :
    Inv key (s.putTick i tick) :=
  { h with
    clock := fun t ht now hn => by
      rcases mem_cons.1 ht with rfl | ht
      · exact hnow now hn
      · exact h.clock t (mem_of_mem_filter ht) now hn
    held := fun r hr hlive hheld => by
      obtain ⟨t, ht, c, hc, hkey⟩ := held_eq_true.1 hheld
      rcases mem_cons.1 ht with rfl | ht
      · exact htodo c hc r hr hlive hkey
      · exact h.held r hr hlive (held_eq_true.2 ⟨t, mem_of_mem_filter ht, c, hc, hkey⟩) }

theorem Inv.dropTick (h : Inv key s) (i : ℕ) : Inv key (s.dropTick i) :=
  { h with
    clock := fun t ht => h.clock t (mem_of_mem_filter ht)
    held := fun r hr hlive hheld => by
      obtain ⟨t, ht, hc⟩ := held_eq_true.1 hheld
      exact h.held r hr hlive (held_eq_true.2 ⟨t, mem_of_mem_filter ht, hc⟩) }

/-! #### The clock and the settings -/

theorem Inv.advance (h : Inv key s) {later : Instant} (hlater : s.now ≤ later) : Inv key { s with now := later } :=
  { h with
    past := fun r hr d hd => (h.past r hr d hd).trans hlater
    clock := fun t ht now hnow => (h.clock t ht now hnow).trans hlater }

variable {settings : RetentionSettings}

variable {tenant : TenantId}

theorem Pledge.review_days {p : Pledge} {n : UInt32} (h : (p.review tenant settings).days = some n) :
    p.days = some n ∧ (p.tenantId = tenant → settings.artifactDays p.source p.artifactClass = some n) := by
  unfold Pledge.review at h
  dsimp only at h
  split at h
  · cases h
  · rename_i hsame
    exact ⟨h, fun htenant => (not_not.1 fun hne => hsame ⟨htenant, hne⟩).trans h⟩

variable {r : ArtifactRow}

theorem Kept.review {old : RetentionSettings} {p : Pledge} (h : Kept old p r) (tenant : TenantId)
    (settings : RetentionSettings) :
    Kept (if p.tenantId = tenant then settings else old) (p.review tenant settings) r where
  tenant := h.tenant
  source := h.source
  artifactClass := h.artifactClass
  days n hn := by
    obtain ⟨hdays, hnew⟩ := Pledge.review_days hn
    split
    · rename_i htenant
      exact hnew htenant
    · exact h.days n hdays
  expires hat n hn := h.expires hat n (Pledge.review_days hn).1
  deleted hat n hn := h.deleted hat n (Pledge.review_days hn).1

omit [DecidableEq Key] in
theorem load_cons (s : Retention Key) (tenant t : TenantId) (settings : RetentionSettings) :
    ({ s with settings := (tenant, settings) :: s.settings } : Retention Key).load t =
      if t = tenant then settings else s.load t := by
  unfold Retention.load
  dsimp only
  rw [lookup_cons]
  split
  · rename_i heq
    rw [if_pos (beq_iff_eq.1 heq), Option.getD_some]
  · rename_i hne
    rw [if_neg (beq_eq_false_iff_ne.1 hne)]

theorem Inv.saveSettings (h : Inv key s) (tenant : TenantId) (settings : RetentionSettings) : Inv key { s with
      settings := (tenant, settings) :: s.settings
      pledges := s.pledges.map (.review tenant settings) } :=
  { h with
    known := fun r hr => by
      obtain ⟨p, hp, hid⟩ := mem_map.1 (h.known r hr)
      exact mem_map.2 ⟨_, mem_map_of_mem hp, hid⟩
    kept := fun p' hp' r hr hid => by
      obtain ⟨p, hp, rfl⟩ := mem_map.1 hp'
      have hload := load_cons s tenant p.tenantId settings
      exact hload ▸ (h.kept p hp r hr hid).review tenant settings }

/-! #### Statements on the table -/

theorem Kept.restamped {p : Pledge} {q : ArtifactRow} {given : RetentionSettings}
    (h : Kept settings p q) (hgiven : p.tenantId = tenant → given = settings)
    (hr : Restamped tenant given q r) : Kept settings p r := by
  rcases hr with rfl | ⟨htenant, hlive, hstamp⟩
  · exact h
  · obtain ⟨expiresAt, rfl, hexpires⟩ := stampRow_eq hstamp
    refine { h with expires := fun hat n hn hfits e he => ?_ }
    obtain ⟨n', hn', hadd⟩ := hexpires e he
    have hdays := h.days n hn
    rw [← hgiven (h.tenant.trans htenant), h.source, h.artifactClass, hn'] at hdays
    obtain rfl := Option.some.inj hdays
    rw [addDays_asI32 hadd hfits]
    exact (congrArg (due · n') hat).le

theorem Inv.restamp (h : Inv key s) (hsettings : s.settings.lookup tenant = some settings)
    (combos : List (Text × Text)) :
    Inv key { s with rows := restampArtifactExpiry tenant settings combos s.rows } := by
  have hrestamped : (restampArtifactExpiry tenant settings combos s.rows).map ArtifactRow.id = s.rows.map ArtifactRow.id ∧
      ∀ r ∈ restampArtifactExpiry tenant settings combos s.rows, ∃ q ∈ s.rows, Restamped tenant settings q r :=
    restamped combos s.rows
  obtain ⟨hids, hmem⟩ := hrestamped
  have hload : s.load tenant = settings := by
    unfold Retention.load
    rw [hsettings, Option.getD_some]
  -- restamping touches nothing but the expiry of a row
  have hsame : ∀ r ∈ restampArtifactExpiry tenant settings combos s.rows, ∃ q ∈ s.rows,
      Restamped tenant settings q r ∧ r.id = q.id ∧ r.objectPath = q.objectPath ∧ r.deletedAt = q.deletedAt := by
    intro r hr
    obtain ⟨q, hq, hqr⟩ := hmem r hr
    refine ⟨q, hq, hqr, ?_⟩
    rcases hqr with rfl | ⟨-, -, hstamp⟩
    · exact ⟨rfl, rfl, rfl⟩
    · obtain ⟨expiresAt, rfl, -⟩ := stampRow_eq hstamp
      exact ⟨rfl, rfl, rfl⟩
  exact
    { h with
      ids := hids ▸ h.ids
      own := fun r hr t ht hkey => by
        obtain ⟨q, hq, -, hid, hpath, -⟩ := hsame r hr
        obtain ⟨q', hq', -, hid', hpath', -⟩ := hsame t ht
        rw [hid, hid']
        exact h.own q hq q' hq' (hpath ▸ hpath' ▸ hkey)
      known := fun r hr => by
        obtain ⟨q, hq, -, hid, -, -⟩ := hsame r hr
        exact hid ▸ h.known q hq
      kept := fun p hp r hr hid' => by
        obtain ⟨q, hq, hqr, hid, -, -⟩ := hsame r hr
        exact (h.kept p hp q hq (hid.symm.trans hid')).restamped (fun htenant => htenant ▸ hload.symm) hqr
      past := fun r hr d hd => by
        obtain ⟨q, hq, -, -, -, hdeleted⟩ := hsame r hr
        exact h.past q hq d (hdeleted ▸ hd)
      blob := fun r hr hlive => by
        obtain ⟨q, hq, -, hid, hpath, hdeleted⟩ := hsame r hr
        rw [hid, hpath]
        exact h.blob q hq (hdeleted ▸ hlive)
      held := fun r hr hlive => by
        obtain ⟨q, hq, -, hid, hpath, hdeleted⟩ := hsame r hr
        rw [hid, hpath]
        exact h.held q hq (hdeleted ▸ hlive) }

theorem Inv.softDelete (h : Inv key s) {now : Instant} (hnow : now ≤ s.now) :
    Inv key { s with rows := (softDeleteExpiredArtifacts s.rows now).1 } := by
  have hsame : ∀ r ∈ (softDeleteExpiredArtifacts s.rows now).1, ∃ q ∈ s.rows, r = q ∨
      (∃ e, q.expiresAt = some e ∧ e < now) ∧ r = { q with deletedAt := some now } := by
    intro r hr
    obtain ⟨q, hq, ⟨hp, rfl⟩ | ⟨-, rfl⟩⟩ := Rows.mem_updateWhere.1 hr
    · refine ⟨q, hq, .inr ⟨?_, rfl⟩⟩
      rw [Bool.and_eq_true, Option.any_eq_true] at hp
      obtain ⟨-, e, he, hlt⟩ := hp
      exact ⟨e, he, of_decide_eq_true hlt⟩
    · exact ⟨r, hq, .inl rfl⟩
  have hids : (softDeleteExpiredArtifacts s.rows now).1.map ArtifactRow.id = s.rows.map ArtifactRow.id :=
    Rows.map_key_updateWhere fun _ => rfl
  exact
    { h with
      ids := hids ▸ h.ids
      own := fun r hr t ht => by
        obtain ⟨q, hq, hr⟩ := hsame r hr
        obtain ⟨q', hq', ht⟩ := hsame t ht
        have hown := h.own q hq q' hq'
        rcases hr with rfl | ⟨-, rfl⟩ <;> rcases ht with rfl | ⟨-, rfl⟩ <;> exact hown
      known := fun r hr => by
        obtain ⟨q, hq, rfl | ⟨-, rfl⟩⟩ := hsame r hr
        · exact h.known r hq
        · exact h.known q hq
      kept := fun p hp r hr hid => by
        obtain ⟨q, hq, rfl | ⟨⟨e, he, hlt⟩, rfl⟩⟩ := hsame r hr
        · exact h.kept p hp r hq hid
        · have hkept := h.kept p hp q hq hid
          refine { hkept with deleted := fun hat n hn hfits d hd => ?_ }
          cases hd
          exact (hkept.expires hat n hn hfits e he).trans hlt.le
      past := fun r hr d hd => by
        obtain ⟨q, hq, rfl | ⟨-, rfl⟩⟩ := hsame r hr
        · exact h.past r hq d hd
        · cases hd
          exact hnow
      blob := fun r hr hlive => by
        obtain ⟨q, hq, rfl | ⟨-, rfl⟩⟩ := hsame r hr
        · exact h.blob r hq hlive
        · cases hlive
      held := fun r hr hlive => by
        obtain ⟨q, hq, rfl | ⟨-, rfl⟩⟩ := hsame r hr
        · exact h.held r hq hlive
        · cases hlive }

theorem Inv.deleteRows (h : Inv key s) (ids : List Uuid) : Inv key { s with rows := deleteArtifactRows s.rows ids } :=
  { h with
    ids := h.ids.sublist (filter_sublist.map ArtifactRow.id)
    own := fun r hr t ht => h.own r (mem_of_mem_filter hr) t (mem_of_mem_filter ht)
    known := fun r hr => h.known r (mem_of_mem_filter hr)
    kept := fun p hp r hr => h.kept p hp r (mem_of_mem_filter hr)
    past := fun r hr => h.past r (mem_of_mem_filter hr)
    blob := fun r hr => h.blob r (mem_of_mem_filter hr)
    held := fun r hr => h.held r (mem_of_mem_filter hr) }

theorem Inv.deleteBlob (h : Inv key s) {k : Key} (hheld : s.held key k = true) :
    Inv key { s with blobs := s.blobs.filter (· ≠ k) } :=
  { h with
    blob := fun r hr hlive hunput hovertaken => by
      have hne : key r.objectPath ≠ k := fun heq => hovertaken (h.held r hr hlive (heq ▸ hheld))
      exact mem_filter.2 ⟨h.blob r hr hlive hunput hovertaken, decide_eq_true hne⟩ }

theorem Inv.not_live (h : Inv key s) {before : Instant} {c : Uuid × Text}
    (hc : c ∈ artifactGcCandidates s.rows before) (hr : r ∈ s.rows)
    (hlive : r.deletedAt = none) : key c.2 ≠ key r.objectPath := by
  intro hkey
  obtain ⟨q, hq, rfl⟩ := mem_map.1 hc
  obtain ⟨hmem, hdeleted⟩ := mem_filter.1 hq
  obtain rfl := Rows.eq_of_key_eq h.ids hmem hr (h.own q hmem r hr hkey)
  rw [hlive] at hdeleted
  cases hdeleted

/-! #### Captures -/

theorem Inv.put (h : Inv key s) (path : Text) : Inv key (s.put key path) :=
  { h with
    blob := fun r hr hlive hunput hovertaken => by
      by_cases hkey : key r.objectPath = key path
      · exact hkey ▸ mem_cons_self
      · -- the put does not speak of another blob's rows
        have hid : r.id ∉ s.idsOf key (key path) := by
          intro hmem
          obtain ⟨q, hq, hqid⟩ := mem_map.1 hmem
          obtain ⟨hq, hqkey⟩ := mem_filter.1 hq
          obtain rfl := Rows.eq_of_key_eq h.ids hq hr hqid
          exact hkey (of_decide_eq_true hqkey)
        refine mem_cons_of_mem _ (h.blob r hr hlive (fun hmem => hunput ?_) fun hmem => hovertaken ?_)
        · exact mem_filter.2 ⟨hmem, decide_eq_true hid⟩
        · unfold Retention.put
          dsimp only
          split
          · exact hmem
          · exact mem_filter.2 ⟨hmem, decide_eq_true hid⟩
    held := fun r hr hlive hheld => by
      have hmem := h.held r hr hlive hheld
      unfold Retention.put
      dsimp only
      split
      · exact hmem
      · rename_i hfree
        refine mem_filter.2 ⟨hmem, decide_eq_true fun hid => hfree ?_⟩
        obtain ⟨q, hq, hqid⟩ := mem_map.1 hid
        obtain ⟨hq, hqkey⟩ := mem_filter.1 hq
        obtain rfl := Rows.eq_of_key_eq h.ids hq hr hqid
        exact of_decide_eq_true hqkey ▸ hheld }

theorem Inv.conflict_unique (h : Inv key s) {rec : ArtifactRecord} {q : ArtifactRow} (hr : r ∈ s.rows)
    (hq : q ∈ s.rows) (hrc : rec.conflicts r = true) (hqc : rec.conflicts q = true) : r = q := by
  have hpath : r.objectPath = q.objectPath := (of_decide_eq_true hrc).2.trans (of_decide_eq_true hqc).2.symm
  exact Rows.eq_of_key_eq h.ids hr hq (h.own r hr q hq (congrArg key hpath))

theorem Inv.register (h : Inv key s) {rec : ArtifactRecord} {fresh : Uuid} (hown : Own key s (.register rec fresh))
    (hfresh : fresh ∉ s.pledges.map Pledge.id) : Inv key (s.register key rec fresh) := by
  obtain ⟨hexpires, hblob⟩ := hown
  have hnew : ∀ r ∈ s.rows, r.id ≠ fresh := fun r hr heq => hfresh (heq ▸ h.known r hr)
  -- the row of the artifact, and the rows of the others
  have hrows : ∀ r ∈ (s.register key rec fresh).rows,
      (r ∈ s.rows ∧ key r.objectPath ≠ key rec.objectPath ∧ r.id ≠ (registerArtifact s.rows rec fresh s.now).2) ∨
      (r.id = (registerArtifact s.rows rec fresh s.now).2 ∧ r.tenantId = rec.tenantId ∧ r.objectPath = rec.objectPath ∧
        r.source = rec.source ∧ r.artifactClass = rec.artifactClass ∧ r.expiresAt = none ∧ r.deletedAt = none) := by
    intro r hr
    rcases mem_registerArtifact hr with ⟨hr, hc⟩ | ⟨q, hq, hc, rfl⟩ | ⟨hno, rfl⟩
    · have hne : key r.objectPath ≠ key rec.objectPath := fun hkey => by
        rw [hblob r hr hkey] at hc
        cases hc
      refine .inl ⟨hr, hne, fun hid => ?_⟩
      unfold registerArtifact at hid
      split at hid
      · rename_i row hfind
        obtain rfl := Rows.eq_of_key_eq h.ids hr (mem_of_find?_eq_some hfind) hid
        rw [find?_some hfind] at hc
        cases hc
      · exact hnew r hr hid
    · have hid : (registerArtifact s.rows rec fresh s.now).2 = q.id :=
        registerArtifact_id (fun r hr q hq hrc hqc => h.conflict_unique hr hq hrc hqc) hq hc
      exact .inr ⟨hid.symm, (of_decide_eq_true hc).1, (of_decide_eq_true hc).2, rfl, rfl, hexpires, rfl⟩
    · exact .inr ⟨(registerArtifact_id_of_not hno).symm, rfl, rfl, rfl, rfl, hexpires, rfl⟩
  refine
    { h with
      ids := registerArtifact_ids h.ids hnew
      own := fun r hr t ht hkey => ?_
      known := fun r hr => ?_
      kept := fun p hp r hr hid => ?_
      past := fun r hr d hd => ?_
      blob := fun r hr hlive hunput hovertaken => ?_
      held := fun r hr hlive hheld => ?_ }
  · rcases hrows r hr with ⟨hr, hne, -⟩ | ⟨hid, -, hpath, -⟩
    · rcases hrows t ht with ⟨ht, -, -⟩ | ⟨-, -, hpath, -⟩
      · exact h.own r hr t ht hkey
      · exact absurd (hkey.trans (congrArg key hpath)) hne
    · rcases hrows t ht with ⟨ht, hne, -⟩ | ⟨hid', -⟩
      · exact absurd (hkey.symm.trans (congrArg key hpath)) hne
      · exact hid.trans hid'.symm
  · rcases hrows r hr with ⟨hr, -, hid⟩ | ⟨hid, -⟩
    · obtain ⟨p, hp, hpid⟩ := mem_map.1 (h.known r hr)
      exact mem_map.2 ⟨p, mem_cons_of_mem _ (mem_filter.2 ⟨hp, decide_eq_true (hpid ▸ hid)⟩), hpid⟩
    · exact mem_map.2 ⟨_, mem_cons_self, hid.symm⟩
  · rcases mem_cons.1 hp with rfl | hp
    · rcases hrows r hr with ⟨-, -, hne⟩ | ⟨-, htenant, -, hsource, hclass, hexpires, hlive⟩
      · exact absurd hid hne
      · exact ⟨htenant.symm, hsource.symm, hclass.symm, fun n hn => hn,
          fun _ n _ _ e he => (by rw [hexpires] at he; cases he),
          fun _ n _ _ d hd => (by rw [hlive] at hd; cases hd)⟩
    · obtain ⟨hp, hne⟩ := mem_filter.1 hp
      rcases hrows r hr with ⟨hr, -, -⟩ | ⟨hid', -⟩
      · exact h.kept p hp r hr hid
      · exact absurd (hid.symm.trans hid') (of_decide_eq_true hne)
  · rcases hrows r hr with ⟨hr, -, -⟩ | ⟨-, -, -, -, -, -, hlive⟩
    · exact h.past r hr d hd
    · rw [hlive] at hd
      cases hd
  · unfold Retention.register at hunput hovertaken
    dsimp only at hunput hovertaken
    rcases hrows r hr with ⟨hr, -, hne⟩ | ⟨hid, -, hpath, -⟩
    · refine h.blob r hr hlive (fun hmem => hunput ?_) fun hmem => hovertaken ?_
      · split
        · exact hmem
        · exact mem_cons_of_mem _ hmem
      · split
        · exact mem_cons_of_mem _ hmem
        · exact hmem
    · split at hunput
      · rename_i hthere
        exact hpath ▸ hthere
      · exact absurd (hid ▸ mem_cons_self) hunput
  · have hheld' : s.held key (key r.objectPath) = true := hheld
    unfold Retention.register
    dsimp only
    rcases hrows r hr with ⟨hr, -, -⟩ | ⟨hid, -, hpath, -⟩
    · have hmem := h.held r hr hlive hheld'
      split
      · exact mem_cons_of_mem _ hmem
      · exact hmem
    · rw [if_pos (hpath ▸ hheld')]
      exact hid ▸ mem_cons_self

theorem Inv.step {a : Action} (h : Inv key s) (hown : Own key s a) (hstep : step key grace s a = some s') :
    Inv key s' := by
  cases a with
  | advance later =>
    simp only [Artifacts.step] at hstep
    split at hstep
    · rename_i hlater
      cases hstep
      exact h.advance hlater
    · cases hstep
  | saveSettings tenant settings =>
    simp only [Artifacts.step] at hstep
    split at hstep
    · cases hstep
    · cases hstep
      exact h.saveSettings tenant settings
  | register rec fresh =>
    simp only [Artifacts.step] at hstep
    split at hstep
    · cases hstep
    · rename_i hfresh
      cases hstep
      exact h.register hown hfresh
  | put path =>
    simp only [Artifacts.step] at hstep
    split at hstep
    · cases hstep
      exact h.put path
    · cases hstep
  | putFails path =>
    simp only [Artifacts.step] at hstep
    split at hstep
    · cases hstep
      exact { h with }
    · cases hstep
  | beginTick i =>
    simp only [Artifacts.step] at hstep
    split at hstep
    · cases hstep
    · cases hstep
      exact h.putTick (fun now hnow => (Option.some.inj hnow).ge) fun c hc => by cases hc
  | restamp i tenant combos =>
    simp only [Artifacts.step] at hstep
    split at hstep
    · rename_i settings _ hsettings
      split at hstep
      · cases hstep
        exact h.restamp hsettings combos
      · cases hstep
    · cases hstep
  | softDelete i =>
    simp only [Artifacts.step] at hstep
    split at hstep
    · rename_i now htick
      have hnow : now ≤ s.now := h.clock _ (mem_of_lookup htick) now rfl
      cases hstep
      refine (h.softDelete hnow).putTick (fun now' hnow' => ?_) fun c hc => by cases hc
      exact Option.some.inj hnow' ▸ hnow
    · cases hstep
  | listCandidates i =>
    simp only [Artifacts.step] at hstep
    split at hstep
    · cases hstep
      refine h.putTick (fun now hnow => by cases hnow) fun c hc r hr hlive hkey => ?_
      exact absurd hkey (h.not_live hc hr hlive)
    · cases hstep
  | deleteBlob i fails =>
    simp only [Artifacts.step] at hstep
    split at hstep
    · rename_i id path todo deletedIds htick
      have hmem := mem_of_lookup htick
      -- what is on the rest of the list has been on the list before
      have hrest : ∀ c ∈ todo, ∀ r ∈ s.rows, r.deletedAt = none → key c.2 = key r.objectPath → r.id ∈ s.overtaken :=
        fun c hc r hr hlive hkey =>
          h.held r hr hlive (held_eq_true.2 ⟨_, hmem, c, mem_cons_of_mem _ hc, hkey⟩)
      split at hstep
      · cases hstep
        exact h.putTick (fun now hnow => by cases hnow) hrest
      · cases hstep
        have hheld : s.held key (key path) = true := held_eq_true.2 ⟨_, hmem, _, mem_cons_self, rfl⟩
        exact (h.deleteBlob hheld).putTick (fun now hnow => by cases hnow) hrest
    · cases hstep
  | deleteRows i =>
    simp only [Artifacts.step] at hstep
    split at hstep
    · cases hstep
      exact (h.deleteRows _).dropTick i
    · cases hstep
  | endTick i =>
    cases hstep
    exact h.dropTick i

/-- **What the worker keeps to**, in every run of captures and ticks. -/
theorem keeps_of_own (key : Text → Key) (grace : ℤ) (now : Instant)
    (h : Runs.Reach (Artifacts.step key grace) (Own key) (Retention.init now) s) : Keeps key s := by
  have hinv : Inv key s := h.inv (.init now) fun _ _ _ hinv hown hstep => hinv.step hown hstep
  exact hinv.keeps

end Inv

/-! ### Runs -/

def log : ArtifactRecord := ⟨1, ['a'], ['g'], ['l'], none, none, 0, none, none⟩

def keepFor (n : UInt32) : RetentionSettings := ⟨some n, [], [], []⟩

def sweep (i : ℕ) : List Action := [.beginTick i, .restamp i 1 [(['g'], ['l'])], .softDelete i]

def runOf (actions : List Action) : Option (Retention Text) :=
  Runs.run (step id microsPerDay) (Own id) (.init 0) actions

/-- A log that is kept for a day is captured, swept after two, and purged after four. -/
theorem keeps_of_own_purge : ∃ s : Retention Text, s.rows = [] ∧ s.blobs = [] ∧ Keeps id s := by
  have hrun : runOf ([.saveSettings 1 (keepFor 1), .register log 7, .put ['a'], .advance (2 * microsPerDay)] ++ sweep 0 ++
      [.endTick 0, .advance (4 * microsPerDay), .beginTick 1, .softDelete 1, .listCandidates 1, .deleteBlob 1 false,
        .deleteRows 1]) = some _ := rfl
  exact ⟨_, rfl, rfl, keeps_of_own id microsPerDay 0 (Runs.reach_of_run hrun)⟩

/-- **A live artifact without its blob, or expired too early**: a capture that has registered and not put yet; an artifact
that is captured again while a purge has it on its list; one that is captured again after two of its three days; and one
that is kept for more days than fit. -/
theorem not_retains : (∃ s : Retention Text, runOf [.register log 7] = some s ∧ ¬ Retains id s) ∧
    (∃ s : Retention Text, runOf ([.saveSettings 1 (keepFor 1), .register log 7, .put ['a'], .advance (2 * microsPerDay)] ++
      sweep 0 ++ [.endTick 0, .advance (4 * microsPerDay), .beginTick 1, .softDelete 1, .listCandidates 1,
        .register log 8, .put ['a'], .deleteBlob 1 false]) = some s ∧ ¬ Retains id s) ∧
    (∃ s : Retention Text, runOf ([.saveSettings 1 (keepFor 3), .register log 7, .put ['a'], .advance (2 * microsPerDay),
      .register log 8, .put ['a'], .advance (4 * microsPerDay)] ++ sweep 0) = some s ∧ ¬ Retains id s) ∧
    ∃ s : Retention Text, runOf ([.saveSettings 1 (keepFor 4294967295), .register log 7, .put ['a']] ++ sweep 0) = some s ∧
      ¬ Retains id s := by
  refine ⟨⟨_, rfl, fun h => ?_⟩, ⟨_, rfl, fun h => ?_⟩, ⟨_, rfl, fun h => ?_⟩, ⟨_, rfl, fun h => ?_⟩⟩
  · exact absurd (h.blob _ mem_cons_self rfl) (by decide)
  · exact absurd (h.blob _ mem_cons_self rfl) (by decide)
  · exact absurd (h.kept _ mem_cons_self _ mem_cons_self rfl _ rfl _ rfl).1 (by decide)
  · exact absurd (h.kept _ mem_cons_self _ mem_cons_self rfl _ rfl _ rfl).1 (by decide)

end Artifacts
