/-
**Ticks of a data source.**

A tick loads the cursor, asks the upstream for the rows after it, and sends them to the sink, table
by table.  Each call carries an idempotency key made of the data source, the table and the instant
that the tick was scheduled for: neither the cursor nor the rows are part of it.
-/

import Mathlib.Tactic
import Pensieve.Runs

namespace DataSource

open Function
open List

abbrev Table := String

abbrev Row := ℕ

/-! ### Calls of the sink -/

structure Config where
  id : String
  targetTable : Table
  deriving DecidableEq

/-- What `run_once` returns; `rows` go to the target table. -/
structure DataSourceRun where
  rows : List Row
  tables : List (Table × List Row)
  newCursor : ℕ
  graph : Bool
  deriving DecidableEq

structure Call where
  table : Table
  key : String
  rows : List Row
  deriving DecidableEq

def legacyKey (c : Config) (scheduledForMs : ℤ) : String :=
  "data_source:" ++ c.id ++ ":" ++ toString (scheduledForMs * 1000000)

def tableKey (c : Config) (table : Table) (scheduledForMs : ℤ) : String :=
  "data_source:" ++ c.id ++ ":" ++ table ++ ":" ++ toString (scheduledForMs * 1000000)

def calls (c : Config) (scheduledForMs : ℤ) (run : DataSourceRun) : List Call :=
  (if run.rows.isEmpty then [] else [⟨c.targetTable, legacyKey c scheduledForMs, run.rows⟩]) ++
    run.tables.map fun t => ⟨t.1, tableKey c t.1 scheduledForMs, t.2⟩

/-! ### Ticks under way -/

/-- How far the call at hand is: not begun, not found in the ledger, or committed. -/
inductive Phase
  | idle
  | missed
  | committed
  deriving DecidableEq

inductive Stage
  | loaded
  | running (calls : List Call) (phase : Phase) (graph : Bool) (newCursor : ℕ)
  deriving DecidableEq

structure Attempt where
  scheduledForMs : ℤ
  cursor : ℕ
  stage : Stage
  deriving DecidableEq

structure World where
  upstream : List Table
  cursor : ℕ
  ledger : List String
  contents : Table → List Row
  attempts : ℕ → Option Attempt

def World.init : World := ⟨[], 0, [], fun _ => [], fun _ => none⟩

def World.rowsAfter (s : World) (cursor : ℕ) : List (Table × Row) := s.upstream.zipIdx.drop cursor

def sentRows (c : Config) (run : DataSourceRun) : List (Table × Row) :=
  (run.rows.map fun r => (c.targetTable, r)) ++ run.tables.flatMap fun t => t.2.map fun r => (t.1, r)

inductive Action
  | append (table : Table)
  | start (i : ℕ) (scheduledForMs : ℤ)
  | runOnce (i : ℕ) (run : DataSourceRun)
  | lookup (i : ℕ)
  | commit (i : ℕ)
  | record (i : ℕ)
  | registerGraph (i : ℕ)
  | upsertCursor (i : ℕ)
  | fail (i : ℕ)
  deriving DecidableEq

namespace World

def setStage (s : World) (i : ℕ) (a : Attempt) (stage : Stage) : World :=
  { s with attempts := Function.update s.attempts i (some { a with stage := stage }) }

def finish (s : World) (i : ℕ) : World := { s with attempts := Function.update s.attempts i none }

end World

def stepAttempt (c : Config) (s : World) (i : ℕ) (a : Attempt) : Action → Option World
  | .runOnce _ run =>
    match a.stage with
    | .loaded =>
      if (sentRows c run).Perm (s.rowsAfter a.cursor) ∧ run.newCursor = s.upstream.length then
        some (s.setStage i a (.running (calls c a.scheduledForMs run) .idle run.graph run.newCursor))
      else none
    | _ => none
  | .lookup _ =>
    match a.stage with
    | .running (call :: rest) .idle graph newCursor =>
      if call.key ∈ s.ledger ∨ call.rows = [] then some (s.setStage i a (.running rest .idle graph newCursor))
      else some (s.setStage i a (.running (call :: rest) .missed graph newCursor))
    | _ => none
  | .commit _ =>
    match a.stage with
    | .running (call :: rest) .missed graph newCursor =>
      some (({ s with
        contents := Function.update s.contents call.table (s.contents call.table ++ call.rows) } : World).setStage i
          a (.running (call :: rest) .committed graph newCursor))
    | _ => none
  | .record _ =>
    match a.stage with
    | .running (call :: rest) .committed graph newCursor =>
      some (({ s with ledger := if call.key ∈ s.ledger then s.ledger else s.ledger ++ [call.key] } : World).setStage
        i a (.running rest .idle graph newCursor))
    | _ => none
  | .registerGraph _ =>
    match a.stage with
    | .running [] .idle true newCursor => some (s.setStage i a (.running [] .idle false newCursor))
    | _ => none
  | .upsertCursor _ =>
    match a.stage with
    | .running [] .idle false newCursor => some (({ s with cursor := newCursor } : World).finish i)
    | _ => none
  | .fail _ => some (s.finish i)
  | _ => none

def Action.attempt : Action → Option ℕ
  | .append _ => none
  | .start _ _ => none
  | .runOnce i _ => some i
  | .lookup i => some i
  | .commit i => some i
  | .record i => some i
  | .registerGraph i => some i
  | .upsertCursor i => some i
  | .fail i => some i

def step (c : Config) (s : World) (a : Action) : Option World :=
  match a with
  | .append table => some { s with upstream := s.upstream ++ [table] }
  | .start i scheduledForMs =>
    if s.attempts i = none then
      some { s with attempts := Function.update s.attempts i (some ⟨scheduledForMs, s.cursor, .loaded⟩) }
    else none
  | _ => do
      let i ← a.attempt
      let attempt ← s.attempts i
      stepAttempt c s i attempt a

/-! ### Nothing lost, nothing repeated -/

def Exact (s : World) : Prop := ∀ r table, r < s.cursor → s.upstream[r]? = some table → (s.contents table).count r = 1

def World.callAt (s : World) (i : ℕ) (phase : Phase) : Option Call :=
  (s.attempts i).bind fun a =>
    match a.stage with
    | .running (call :: _) p _ _ => if p = phase then some call else none
    | _ => none

/-- A call whose key is in the ledger has only rows that are in the table, and a call commits only rows that are
not. -/
def Careful (s : World) : Action → Prop
  | .lookup i => ∀ call, s.callAt i .idle = some call → call.key ∈ s.ledger → ∀ r ∈ call.rows, r ∈ s.contents call.table
  | .commit i => ∀ call, s.callAt i .missed = some call → ∀ r ∈ call.rows, r ∉ s.contents call.table
  | _ => True

/-! ### What ticks have passed -/

def Passed (s : World) (n : ℕ) : Prop :=
  n ≤ s.upstream.length ∧ ∀ r table, r < n → s.upstream[r]? = some table → r ∈ s.contents table

/-- The rows up to the new cursor are in their tables, or in a call that is left. -/
structure Running (s : World) (calls : List Call) (phase : Phase) (newCursor : ℕ) : Prop where
  le : newCursor ≤ s.upstream.length
  sent : ∀ r table, r < newCursor → s.upstream[r]? = some table →
    r ∈ s.contents table ∨ ∃ call ∈ calls, call.table = table ∧ r ∈ call.rows
  nodup : ∀ call ∈ calls, call.rows.Nodup
  done : phase = .committed → ∀ call rest, calls = call :: rest → call.rows ⊆ s.contents call.table

def StageOk (s : World) : Stage → Prop
  | .loaded => True
  | .running calls phase _ newCursor => Running s calls phase newCursor

structure Inv (s : World) : Prop where
  once : ∀ table, (s.contents table).Nodup
  passed : Passed s s.cursor
  attempts : ∀ i a, s.attempts i = some a → Passed s a.cursor ∧ StageOk s a.stage

structure Grows (s s' : World) : Prop where
  upstream : s.upstream <+: s'.upstream
  contents : ∀ table, s.contents table ⊆ s'.contents table

section Steps

variable {c : Config} {s s' : World} {i n : ℕ} {a : Attempt} {stage : Stage} {cs : List Call} {phase : Phase}

theorem Grows.of_eq (hu : s.upstream = s'.upstream) (hc : s.contents = s'.contents) : Grows s s' :=
  ⟨hu ▸ prefix_rfl, fun _ => hc ▸ List.Subset.refl _⟩

theorem Grows.getElem? (h : Grows s s') {r : Row} (hr : r < s.upstream.length) : s'.upstream[r]? = s.upstream[r]? := by
  obtain ⟨more, hmore⟩ := h.upstream
  rw [← hmore]
  exact getElem?_append_left hr

theorem Passed.grows (h : Passed s n) (hg : Grows s s') : Passed s' n := by
  refine ⟨le_trans h.1 hg.upstream.length_le, fun r table hr htable => ?_⟩
  rw [hg.getElem? (lt_of_lt_of_le hr h.1)] at htable
  exact hg.contents table (h.2 r table hr htable)

theorem Running.grows (h : Running s cs phase n) (hg : Grows s s') : Running s' cs phase n where
  le := le_trans h.le hg.upstream.length_le
  sent r table hr htable := by
    rw [hg.getElem? (lt_of_lt_of_le hr h.le)] at htable
    exact (h.sent r table hr htable).imp_left (hg.contents table ·)
  nodup := h.nodup
  done hp call rest hcs := List.Subset.trans (h.done hp call rest hcs) (hg.contents _)

theorem StageOk.grows (h : StageOk s stage) (hg : Grows s s') : StageOk s' stage := by
  cases stage with
  | loaded => exact trivial
  | running calls phase graph newCursor => exact Running.grows h hg

theorem Inv.grows (h : Inv s) (hg : Grows s s') (honce : ∀ table, (s'.contents table).Nodup)
    (hcursor : s'.cursor = s.cursor) (hattempts : s'.attempts = s.attempts) : Inv s' where
  once := honce
  passed := hcursor ▸ h.passed.grows hg
  attempts j b hj := by
    obtain ⟨hp, hst⟩ := h.attempts j b (hattempts ▸ hj)
    exact ⟨hp.grows hg, hst.grows hg⟩

theorem Inv.setStage (h : Inv s) (ha : s.attempts i = some a) (hst : StageOk s stage) : Inv (s.setStage i a stage) := by
  refine ⟨h.once, h.passed, fun j b hj => ?_⟩
  by_cases hji : j = i
  · subst hji
    simp only [World.setStage, update_self, Option.some.injEq] at hj
    subst hj
    exact ⟨(h.attempts j a ha).1.grows (.of_eq rfl rfl), hst.grows (.of_eq rfl rfl)⟩
  · simp only [World.setStage, update_of_ne hji] at hj
    obtain ⟨hp, hok⟩ := h.attempts j b hj
    exact ⟨hp.grows (.of_eq rfl rfl), hok.grows (.of_eq rfl rfl)⟩

theorem Inv.finish (h : Inv s) : Inv (s.finish i) := by
  refine ⟨h.once, h.passed, fun j b hj => ?_⟩
  by_cases hji : j = i
  · subst hji
    simp [World.finish] at hj
  · simp only [World.finish, update_of_ne hji] at hj
    obtain ⟨hp, hok⟩ := h.attempts j b hj
    exact ⟨hp.grows (.of_eq rfl rfl), hok.grows (.of_eq rfl rfl)⟩

/-! #### Reading the upstream -/

theorem mem_rowsAfter {cursor : ℕ} {table : Table} {r : Row} :
    (table, r) ∈ s.rowsAfter cursor ↔ cursor ≤ r ∧ s.upstream[r]? = some table := by
  rw [World.rowsAfter, mem_iff_getElem?]
  constructor
  · rintro ⟨k, hk⟩
    rw [getElem?_drop, getElem?_zipIdx, Option.map_eq_some_iff] at hk
    obtain ⟨t, ht, heq⟩ := hk
    simp only [Prod.mk.injEq, Nat.zero_add] at heq
    obtain ⟨rfl, rfl⟩ := heq
    exact ⟨Nat.le_add_right _ _, ht⟩
  · rintro ⟨hle, ht⟩
    refine ⟨r - cursor, ?_⟩
    rw [getElem?_drop, getElem?_zipIdx, Nat.add_sub_cancel' hle, ht]
    simp

theorem nodup_rowsAfter (s : World) (cursor : ℕ) : (s.rowsAfter cursor).Nodup := by
  refine List.Nodup.sublist (drop_sublist _ _) ?_
  refine List.Nodup.of_map Prod.snd ?_
  rw [zipIdx_map_snd]
  exact nodup_range'

variable {run : DataSourceRun}

theorem mem_calls_iff {scheduledForMs : ℤ} {table : Table} {r : Row} :
    (∃ call ∈ calls c scheduledForMs run, call.table = table ∧ r ∈ call.rows) ↔ (table, r) ∈ sentRows c run := by
  simp only [calls, sentRows, mem_append, mem_map, mem_flatMap, Prod.mk.injEq]
  constructor
  · rintro ⟨call, hcall | ⟨t, ht, rfl⟩, rfl, hr⟩
    · split at hcall
      · simp at hcall
      · obtain rfl := mem_singleton.1 hcall
        exact .inl ⟨r, hr, rfl, rfl⟩
    · exact .inr ⟨t, ht, r, hr, rfl, rfl⟩
  · rintro (⟨r', hr, rfl, rfl⟩ | ⟨t, ht, r', hr, rfl, rfl⟩)
    · refine ⟨⟨c.targetTable, legacyKey c scheduledForMs, run.rows⟩, .inl ?_, rfl, hr⟩
      rw [if_neg (by simpa using ne_nil_of_mem hr)]
      exact mem_singleton.2 rfl
    · exact ⟨⟨t.1, tableKey c t.1 scheduledForMs, t.2⟩, .inr ⟨t, ht, rfl⟩, rfl, hr⟩

theorem nodup_calls {scheduledForMs : ℤ} (h : (sentRows c run).Nodup) {call : Call}
    (hcall : call ∈ calls c scheduledForMs run) : call.rows.Nodup := by
  rw [sentRows, nodup_append, nodup_flatMap] at h
  obtain ⟨hlegacy, ⟨htables, -⟩, -⟩ := h
  simp only [calls, mem_append, mem_map] at hcall
  obtain hcall | ⟨t, ht, rfl⟩ := hcall
  · split at hcall
    · simp at hcall
    · obtain rfl := mem_singleton.1 hcall
      exact List.Nodup.of_map _ hlegacy
  · exact List.Nodup.of_map _ (htables t ht)

theorem running_of_read (hpassed : Passed s a.cursor) (hperm : (sentRows c run).Perm (s.rowsAfter a.cursor))
    (hcursor : run.newCursor = s.upstream.length) :
    Running s (calls c a.scheduledForMs run) .idle run.newCursor where
  le := Nat.le_of_eq hcursor
  sent r table hr htable := by
    by_cases hold : r < a.cursor
    · exact .inl (hpassed.2 r table hold htable)
    · right
      rw [mem_calls_iff, hperm.mem_iff, mem_rowsAfter]
      exact ⟨Nat.le_of_not_lt hold, htable⟩
  nodup call hcall := nodup_calls (hperm.nodup_iff.2 (nodup_rowsAfter s a.cursor)) hcall
  done h := by cases h

theorem Running.next {call : Call} {rest : List Call} (h : Running s (call :: rest) phase n)
    (hrows : call.rows ⊆ s.contents call.table) : Running s rest .idle n where
  le := h.le
  sent r table hr htable := by
    obtain hmem | ⟨call', hcall', htab, hmem⟩ := h.sent r table hr htable
    · exact .inl hmem
    · obtain rfl | hrest := mem_cons.1 hcall'
      · exact .inl (htab ▸ hrows hmem)
      · exact .inr ⟨call', hrest, htab, hmem⟩
  nodup call' hcall' := h.nodup call' (mem_cons_of_mem _ hcall')
  done hp := by cases hp

theorem Inv.commit {call : Call} {rest : List Call} {graph : Bool} (h : Inv s) (ha : s.attempts i = some a)
    (hstage : a.stage = .running (call :: rest) .missed graph n) (hfresh : ∀ r ∈ call.rows, r ∉ s.contents call.table) :
    Inv (({ s with
      contents := Function.update s.contents call.table (s.contents call.table ++ call.rows) } : World).setStage i
        a (.running (call :: rest) .committed graph n)) := by
  have hok := (h.attempts i a ha).2
  rw [hstage] at hok
  replace hok : Running s (call :: rest) .missed n := hok
  set t : World :=
    { s with contents := Function.update s.contents call.table (s.contents call.table ++ call.rows) } with ht
  have hgrows : Grows s t := by
    refine ⟨prefix_rfl, fun table => ?_⟩
    by_cases heq : table = call.table
    · subst heq
      simp [ht]
    · simp [ht, update_of_ne heq]
  have honce : ∀ table, (t.contents table).Nodup := by
    intro table
    by_cases heq : table = call.table
    · subst heq
      rw [ht]
      dsimp only
      rw [update_self, nodup_append]
      refine ⟨h.once _, hok.nodup call mem_cons_self, ?_⟩
      rintro r hr _ hr' rfl
      exact hfresh r hr' hr
    · rw [ht]
      dsimp only
      rw [update_of_ne heq]
      exact h.once table
  refine (h.grows hgrows honce rfl rfl).setStage ha ?_
  have hrun := hok.grows hgrows
  refine ⟨hrun.le, hrun.sent, hrun.nodup, ?_⟩
  rintro - _ _ ⟨⟩
  simp [ht]

theorem step_attempt {act : Action} (hi : act.attempt = some i) (hs : step c s act = some s') :
    ∃ a, s.attempts i = some a ∧ stepAttempt c s i a act = some s' := by
  cases act with
  | append table | start j scheduledForMs => cases hi
  | runOnce j run | lookup j | commit j | record j | registerGraph j | upsertCursor j
  | fail j => cases hi; exact Option.bind_eq_some_iff.1 hs

/-- **One step**, if it skips only what is there and commits only what is not. -/
theorem Inv.step {act : Action} (h : Inv s) (hcareful : Careful s act) (hs : step c s act = some s') : Inv s' := by
  cases act with
  | append table =>
    cases hs
    exact h.grows ⟨prefix_append _ _, fun _ => List.Subset.refl _⟩ h.once rfl rfl
  | start i scheduledForMs =>
    simp only [DataSource.step] at hs
    split at hs
    · cases hs
      refine ⟨h.once, h.passed, fun j b hj => ?_⟩
      by_cases hji : j = i
      · subst hji
        simp only [update_self, Option.some.injEq] at hj
        subst hj
        exact ⟨h.passed.grows (.of_eq rfl rfl), trivial⟩
      · simp only [update_of_ne hji] at hj
        obtain ⟨hp, hok⟩ := h.attempts j b hj
        exact ⟨hp.grows (.of_eq rfl rfl), hok.grows (.of_eq rfl rfl)⟩
    · simp at hs
  | runOnce i run =>
    obtain ⟨a, ha, hs⟩ := step_attempt rfl hs
    dsimp only [stepAttempt] at hs
    cases hstage : a.stage with
    | loaded =>
      simp only [hstage] at hs
      split at hs
      next hread =>
        cases hs
        exact h.setStage ha (running_of_read (h.attempts i a ha).1 hread.1 hread.2)
      next hread => simp at hs
    | running calls phase graph newCursor => simp [hstage] at hs
  | lookup i =>
    obtain ⟨a, ha, hs⟩ := step_attempt rfl hs
    have hok := (h.attempts i a ha).2
    dsimp only [stepAttempt] at hs
    split at hs
    next call rest graph newCursor hstage =>
      rw [hstage] at hok
      replace hok : Running s (call :: rest) .idle newCursor := hok
      have hat : s.callAt i .idle = some call := by simp [World.callAt, ha, hstage]
      split at hs
      next hskip =>
        cases hs
        refine h.setStage ha (hok.next ?_)
        obtain hkey | hempty := hskip
        · exact hcareful call hat hkey
        · rw [hempty]
          exact nil_subset _
      next hskip =>
        cases hs
        exact h.setStage ha ⟨hok.le, hok.sent, hok.nodup, fun hp => by cases hp⟩
    next => simp at hs
  | commit i =>
    obtain ⟨a, ha, hs⟩ := step_attempt rfl hs
    dsimp only [stepAttempt] at hs
    split at hs
    next call rest graph newCursor hstage =>
      cases hs
      have hat : s.callAt i .missed = some call := by simp [World.callAt, ha, hstage]
      exact h.commit ha hstage (hcareful call hat)
    next => simp at hs
  | record i =>
    obtain ⟨a, ha, hs⟩ := step_attempt rfl hs
    have hok := (h.attempts i a ha).2
    dsimp only [stepAttempt] at hs
    split at hs
    next call rest graph newCursor hstage =>
      cases hs
      rw [hstage] at hok
      replace hok : Running s (call :: rest) .committed newCursor := hok
      have hgrows : Grows s { s with ledger := if call.key ∈ s.ledger then s.ledger else s.ledger ++ [call.key] } :=
        .of_eq rfl rfl
      exact (h.grows hgrows h.once rfl rfl).setStage ha ((hok.next (hok.done rfl call rest rfl)).grows hgrows)
    next => simp at hs
  | registerGraph i =>
    obtain ⟨a, ha, hs⟩ := step_attempt rfl hs
    have hok := (h.attempts i a ha).2
    dsimp only [stepAttempt] at hs
    split at hs
    next newCursor hstage =>
      cases hs
      rw [hstage] at hok
      exact h.setStage ha hok
    next => simp at hs
  | upsertCursor i =>
    obtain ⟨a, ha, hs⟩ := step_attempt rfl hs
    have hok := (h.attempts i a ha).2
    dsimp only [stepAttempt] at hs
    split at hs
    next newCursor hstage =>
      cases hs
      rw [hstage] at hok
      replace hok : Running s [] .idle newCursor := hok
      -- no call is left, so that every row up to the new cursor is in its table
      have hpassed : Passed s newCursor := by
        refine ⟨hok.le, fun r table hr htable => ?_⟩
        obtain hmem | ⟨_, hnil, -⟩ := hok.sent r table hr htable
        · exact hmem
        · simp at hnil
      have hcursor : Inv { s with cursor := newCursor } :=
        ⟨h.once, hpassed.grows (.of_eq rfl rfl), fun j b hj => by
          obtain ⟨hp, hst⟩ := h.attempts j b hj
          exact ⟨hp.grows (.of_eq rfl rfl), hst.grows (.of_eq rfl rfl)⟩⟩
      exact hcursor.finish
    next => simp at hs
  | fail i =>
    obtain ⟨a, ha, hs⟩ := step_attempt rfl hs
    cases hs
    exact h.finish

theorem inv_init : Inv World.init where
  once _ := nodup_nil
  passed := ⟨Nat.le_refl _, fun r _ hr => absurd hr (Nat.not_lt_zero r)⟩
  attempts i a ha := by cases ha

theorem Inv.exact (h : Inv s) : Exact s := fun r table hr htable =>
  count_eq_one_of_mem (h.once table) (h.passed.2 r table hr htable)

end Steps

/-! #### Rows that arrive between an attempt and its retry -/

def feed : Config := ⟨"7", "events"⟩

def firstRead : DataSourceRun := ⟨[], [("items", [0])], 1, false⟩

def secondRead : DataSourceRun := ⟨[], [("items", [0, 1])], 2, false⟩

end DataSource
