/-
**The consolidation of firehose events into memories.**

A tick distils what is new in each realm and stores one watermark for all of them, the time that it read at its start.
-/

import Mathlib.Data.List.Dedup
import Mathlib.Data.List.Perm.Basic
import Mathlib.Data.List.Sort
import Pensieve.Rows
import Pensieve.Runs

namespace Consolidator

open List Function

abbrev Realm := String

/-- A row of `claude_code_events`; an absent text is the empty one. -/
structure Event where
  id : ℕ
  ts : ℕ
  realm : Option Realm
  kind : String
  text : String
  toolName : String
  deriving DecidableEq

/-- What a tick meets: `late` are the events that arrive while it runs, in order, of which `listed` are there when the
realms are counted, and `later` more when a realm's window is read.  The rest says which of its calls succeed. -/
structure Tick where
  now : ℕ
  minEvents : ℤ
  engine : Bool
  late : List Event
  listed : ℕ
  later : Realm → ℕ
  watermarkRead : Bool
  windowRead : Realm → Bool
  extracts : Realm → Bool
  saves : Realm → Bool

/-- The events, the newest watermark of a success, and the inputs of the extractions and the summaries that the
successful ticks made. -/
structure World where
  events : List Event
  watermark : Option ℕ
  covered : List Event

def isFresh (watermark : Option ℕ) (e : Event) : Bool := ∀ m ∈ watermark, m < e.ts

def isShown (e : Event) : Bool := e.text ≠ "" || e.toolName ≠ ""

def ofRealm (realm : Option Realm) (events : List Event) : List Event := events.filter (Event.realm · = realm)

def counted (t : Tick) (watermark : Option ℕ) (events : List Event) (realm : Option Realm) : List Event :=
  ofRealm realm ((events ++ t.late.take t.listed).filter (isFresh watermark))

/-- The events of `fetch_window`. -/
def fetchWindow (t : Tick) (watermark : Option ℕ) (events : List Event) (realm : Realm) : List Event :=
  if t.windowRead realm then
    let rows := ofRealm (some realm) ((events ++ t.late.take (t.listed + t.later realm)).filter (isFresh watermark))
    ((rows.insertionSort (·.ts ≤ ·.ts)).take 60).filter isShown
  else []

def extractRealm (t : Tick) (watermark : Option ℕ) (events : List Event) (realm : Realm) : Option (List Event) :=
  let window := fetchWindow t watermark events realm
  if window = [] ∨ t.extracts realm then some window else none

/-- The loop's body in `consolidate`, for the realm and its new events. -/
def consolidateRealm (t : Tick) (watermark : Option ℕ) (events : List Event) (realm : Option Realm) : List Event :=
  let name := realm.getD "default"
  if ((counted t watermark events realm).length : ℤ) < t.minEvents then []
  else
    match if t.engine then extractRealm t watermark events name else none with
    | some window => window
    | none => if t.saves name then counted t watermark events realm else []

def tick (w : World) (t : Tick) : World :=
  let watermark := if t.watermarkRead then w.watermark else none
  let realms := (((w.events ++ t.late.take t.listed).filter (isFresh watermark)).map Event.realm).dedup.take 1000
  if realms = [] then { w with events := w.events ++ t.late }
  else
    { events := w.events ++ t.late
      watermark := some (max (w.watermark.getD 0) t.now)
      covered := w.covered ++ realms.flatMap (consolidateRealm t watermark w.events) }

/-- A tick that fails stores no watermark; what arrives meanwhile arrives on its own. -/
inductive Action
  | arrive (e : Event)
  | tick (t : Tick)
  | failed

def step (w : World) : Action → Option World
  | .arrive e =>
    if e ∉ w.events ∧ (∀ e' ∈ w.events, e'.ts ≤ e.ts) ∧ ∀ m ∈ w.watermark, m ≤ e.ts then
      some { w with events := w.events ++ [e] }
    else none
  | .tick t =>
    if (w.events ++ t.late).Nodup ∧ (∀ e ∈ w.events, e.ts ≤ t.now) ∧ (∀ e ∈ t.late, t.now ≤ e.ts) ∧
        ∀ m ∈ w.watermark, m < t.now then
      some (tick w t)
    else none
  | .failed => some w

def World.init : World := ⟨[], none, []⟩

/-! ### No event is passed over -/

/-- The realm has as many new events as are asked for.  Its extraction reads them all in one window, and no event that
arrived later, or else its summary is saved. -/
structure RealmHeeds (t : Tick) (watermark : Option ℕ) (events : List Event) (realm : Option Realm) : Prop where
  enough : t.minEvents ≤ (counted t watermark events realm).length
  window : t.engine → realm.isSome ∧ t.windowRead (realm.getD "default") ∧
    ∀ e ∈ ofRealm realm (events ++ t.late.take (t.listed + t.later (realm.getD "default"))),
      isFresh watermark e → isShown e
  whole : t.engine → t.extracts (realm.getD "default") → (counted t watermark events realm).length ≤ 60 ∧
    ofRealm realm ((t.late.drop t.listed).take (t.later (realm.getD "default"))) = []
  saved : t.engine = false ∨ t.extracts (realm.getD "default") = false → t.saves (realm.getD "default")

/-- The tick reads the stored watermark, and if it finds new events, those are all events up to its time and no later
ones, of at most a thousand realms. -/
structure TickHeeds (w : World) (t : Tick) : Prop where
  read : t.watermarkRead ∨ w.watermark = none
  early : ∀ e ∈ t.late.take t.listed, e.ts = t.now
  late : (w.events ++ t.late.take t.listed).filter (isFresh w.watermark) ≠ [] → ∀ e ∈ t.late.drop t.listed, t.now < e.ts
  realms : (((w.events ++ t.late.take t.listed).filter (isFresh w.watermark)).map Event.realm).dedup.length ≤ 1000
  realm : ∀ e ∈ (w.events ++ t.late.take t.listed).filter (isFresh w.watermark),
    RealmHeeds t w.watermark w.events e.realm

def Heeds (w : World) : Action → Prop
  | .arrive e => ∀ m ∈ w.watermark, m < e.ts
  | .tick t => TickHeeds w t
  | .failed => True

structure Inv (w : World) : Prop where
  nodup : w.events.Nodup
  covered : w.covered.Perm (w.events.filter (! isFresh w.watermark ·))

variable {w w' : World} {t : Tick} {e : Event} {a : Action} {realm : Option Realm} {watermark : Option ℕ}
  {events : List Event}

theorem isFresh_iff : isFresh watermark e ↔ ∀ m ∈ watermark, m < e.ts := by simp [isFresh]

theorem isFresh_some {m : ℕ} : isFresh (some m) e = decide (m < e.ts) := by simp [isFresh]

theorem mem_ofRealm : e ∈ ofRealm realm events ↔ e ∈ events ∧ e.realm = realm := by simp [ofRealm]

theorem ofRealm_append (realm : Option Realm) (l l' : List Event) :
    ofRealm realm (l ++ l') = ofRealm realm l ++ ofRealm realm l' := filter_append ..

theorem ofRealm_filter (realm : Option Realm) (p : Event → Bool) (l : List Event) :
    ofRealm realm (l.filter p) = (ofRealm realm l).filter p := by
  rw [ofRealm, ofRealm, filter_filter, filter_filter]
  exact filter_congr fun e _ => Bool.and_comm ..

theorem consolidateRealm_perm (h : RealmHeeds t watermark events realm) (hne : counted t watermark events realm ≠ []) :
    (consolidateRealm t watermark events realm).Perm (counted t watermark events realm) := by
  rw [consolidateRealm, if_neg (not_lt.2 h.enough)]
  by_cases hengine : t.engine
  · obtain ⟨hsome, hread, hshown⟩ := h.window hengine
    obtain ⟨name, rfl⟩ := Option.isSome_iff_exists.1 hsome
    rw [Option.getD_some] at hread hshown
    have hrows : fetchWindow t watermark events name = ((ofRealm (some name)
        ((events ++ t.late.take (t.listed + t.later name)).filter (isFresh watermark))).insertionSort
          (·.ts ≤ ·.ts)).take 60 := by
      rw [fetchWindow, if_pos hread]
      refine filter_eq_self.2 fun e he => ?_
      have hmem := (mem_insertionSort _).1 (mem_of_mem_take he)
      rw [ofRealm_filter, mem_filter] at hmem
      exact hshown e hmem.1 hmem.2
    have hsplit : ofRealm (some name) ((events ++ t.late.take (t.listed + t.later name)).filter (isFresh watermark)) =
        counted t watermark events (some name) ++
          (ofRealm (some name) ((t.late.drop t.listed).take (t.later name))).filter (isFresh watermark) := by
      rw [take_add, ← append_assoc, filter_append, ofRealm_append, ofRealm_filter _ _ (take _ _)]
      rfl
    rw [if_pos hengine, Option.getD_some, extractRealm, hrows, hsplit]
    by_cases hex : t.extracts name
    · obtain ⟨hlen, hlater⟩ := h.whole hengine hex
      rw [Option.getD_some] at hlater
      rw [if_pos (.inr hex), hlater, filter_nil, append_nil, take_of_length_le (by rwa [length_insertionSort])]
      exact perm_insertionSort ..
    · have hsaved : t.saves name := h.saved (.inr (by simpa using hex))
      rw [if_neg]
      · change (if t.saves name then counted t watermark events (some name) else []).Perm _
        rw [if_pos hsaved]
      · rintro (hnil | hex')
        · have hzero := congrArg length hnil
          simp only [length_take, length_insertionSort, length_append, length_nil] at hzero
          have hpos := length_pos_of_ne_nil hne
          omega
        · exact hex hex'
  · rw [if_neg hengine, if_pos (h.saved (.inl (by simpa using hengine)))]

theorem realm_mem (h : TickHeeds w t) (hrealm : realm ∈
      ((w.events ++ t.late.take t.listed).filter (isFresh w.watermark)).map Event.realm) :
    (consolidateRealm t w.watermark w.events realm).Perm (counted t w.watermark w.events realm) := by
  obtain ⟨e, he, rfl⟩ := mem_map.1 hrealm
  exact consolidateRealm_perm (h.realm e he) (ne_nil_of_mem (mem_ofRealm.2 ⟨he, rfl⟩))

theorem flatMap_consolidateRealm (h : TickHeeds w t) :
    ((((w.events ++ t.late.take t.listed).filter (isFresh w.watermark)).map Event.realm).dedup.flatMap
      (consolidateRealm t w.watermark w.events)).Perm
        ((w.events ++ t.late.take t.listed).filter (isFresh w.watermark)) :=
  (Perm.flatMap_left _ fun _ hr => realm_mem h (mem_dedup.1 hr)).trans
    (Rows.flatMap_filter_perm (nodup_dedup _) fun _ he => mem_dedup.2 (mem_map_of_mem he))

theorem Inv.tick (h : Inv w) (ha : TickHeeds w t) (hs : Consolidator.step w (.tick t) = some w') : Inv w' := by
  obtain ⟨⟨hnodup, hpast, hlate, hclock⟩, heq⟩ := Option.ite_none_right_eq_some.1 hs
  cases heq
  have hwm : (if t.watermarkRead then w.watermark else none) = w.watermark := by
    rcases ha.read with hread | hnone
    · rw [if_pos hread]
    · rw [hnone, ite_self]
  have hfresh : ∀ e ∈ t.late, isFresh w.watermark e := fun e he => isFresh_iff.2 fun m hm => by
    have hm := hclock m hm
    have he := hlate e he
    omega
  rw [Consolidator.tick, hwm, take_of_length_le ha.realms]
  split
  · -- nothing is new: the watermark stays
    refine ⟨hnodup, h.covered.trans ?_⟩
    have hnil : t.late.filter (! isFresh w.watermark ·) = [] := filter_eq_nil_iff.2 fun e he => by simp [hfresh e he]
    rw [filter_append, hnil, append_nil]
  next hrealms =>
    have hseen : (w.events ++ t.late.take t.listed).filter (isFresh w.watermark) ≠ [] := by
      intro hnil
      rw [hnil] at hrealms
      exact hrealms rfl
    have hmax : max (w.watermark.getD 0) t.now = t.now := by
      cases hw : w.watermark with
      | none => exact Nat.max_eq_right (Nat.zero_le _)
      | some m => exact Nat.max_eq_right (hclock m hw).le
    -- what the tick passes is what it has seen
    have hpassed : (w.events ++ t.late).filter (! isFresh (some t.now) ·) = w.events ++ t.late.take t.listed := by
      have hpass : ∀ e : Event, (! isFresh (some t.now) e) = decide (e.ts ≤ t.now) := fun e => by
        rw [isFresh_some, ← decide_not]
        simp
      conv_lhs => rw [← take_append_drop t.listed t.late]
      rw [filter_congr fun e _ => hpass e, filter_append, filter_append, filter_eq_self.2 fun e he => decide_eq_true (hpast e he),
        filter_eq_self.2 fun e he => decide_eq_true (ha.early e he).le,
        filter_eq_nil_iff.2 fun e he => by simpa using ha.late hseen e he, append_nil]
    refine ⟨hnodup, (h.covered.append (flatMap_consolidateRealm ha)).trans ?_⟩
    rw [hmax, hpassed, filter_append, filter_eq_self.2 fun e he => hfresh e (mem_of_mem_take he), ← append_assoc]
    exact Perm.append_right _ (perm_append_comm.trans (filter_append_perm ..))

theorem Inv.step (h : Inv w) (ha : Heeds w a) (hs : step w a = some w') : Inv w' := by
  cases a with
  | arrive e =>
    obtain ⟨⟨hnew, -, -⟩, heq⟩ := Option.ite_none_right_eq_some.1 hs
    cases heq
    refine ⟨h.nodup.append (nodup_singleton e) (by simpa using hnew), h.covered.trans ?_⟩
    have hnil : [e].filter (! isFresh w.watermark ·) = [] := by simp [isFresh_iff.2 ha]
    rw [filter_append, hnil, append_nil]
  | tick t => exact h.tick ha hs
  | failed =>
    cases hs
    exact h

/-- **No event is passed over** in a run that heeds: those up to the watermark are covered once. -/
theorem covered_of_heeds (h : Runs.Reach step Heeds World.init w) :
    ∀ e ∈ w.events, (∃ m ∈ w.watermark, e.ts ≤ m) → w.covered.count e = 1 := by
  have hinv : Inv w := h.inv ⟨nodup_nil, .nil⟩ fun _ _ _ hi ha hs => hi.step ha hs
  rintro e he ⟨m, hm, hle⟩
  have hold : (! isFresh w.watermark e) = true := by
    rw [Bool.not_eq_true', Bool.eq_false_iff, ne_eq, isFresh_iff]
    exact fun hfresh => absurd (hfresh m hm) (not_lt.2 hle)
  rw [hinv.covered.count_eq, count_filter (by exact hold)]
  exact count_eq_one_of_mem hinv.nodup he

def prompt : Event := ⟨1, 10, some "pensieve", "user_prompt", "fix the test", ""⟩

def summarise (minEvents : ℤ) : Tick :=
  ⟨20, minEvents, false, [], 0, fun _ => 0, true, fun _ => true, fun _ => true, fun _ => true⟩

theorem covered_of_heeds_prompt : ∃ w, Runs.Reach step Heeds World.init w ∧ w.watermark = some 20 ∧
    w.covered.count prompt = 1 := by
  have harrive : Runs.Reach step Heeds World.init ⟨[prompt], none, []⟩ :=
    .step (.arrive prompt) .init (by exact nofun) rfl
  have hrealm : RealmHeeds (summarise 1) none [prompt] (some "pensieve") := ⟨by decide, nofun, nofun, fun _ => rfl⟩
  have htick : Runs.Reach step Heeds World.init _ :=
    .step (.tick (summarise 1)) harrive ⟨.inl rfl, nofun, fun _ => nofun, by decide, fun e he => by
      obtain rfl := mem_singleton.1 he
      exact hrealm⟩ rfl
  exact ⟨_, htick, by decide, covered_of_heeds htick prompt (by decide) ⟨20, by decide, by decide⟩⟩

/-- **Of a realm with fewer events than the setting asks for, the watermark passes the event.** -/
theorem quiet_realm_passed : ∃ w, step ⟨[prompt], none, []⟩ (.tick (summarise 5)) = some w ∧
    w.watermark = some 20 ∧ prompt ∈ w.events ∧ w.covered = [] :=
  ⟨_, rfl, by decide, by decide, by decide⟩

end Consolidator
