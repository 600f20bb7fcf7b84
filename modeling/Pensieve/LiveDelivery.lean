/-
**What the live tail delivers.**

Rows are committed to the sources of a subscription, each bearing the millisecond of its commit; the
session reads them through one cursor for all its sources.
-/

import Pensieve.CursorFeed
import Pensieve.LiveTail

namespace Discover

open List

/-! ### What a fanout sends -/

/-- How the query engine reads a row: its event time in milliseconds, and whether the clauses keep it. -/
structure Engine (R : Type) where
  time : R → Int
  keeps : List (Clause Text) → ResolvedSource → R → Bool

variable {R : Type} (E : Engine R)

/-- The rows of a source that the compiled query returns: those that the clauses keep, within the time range if
the source has a time column, up to the limit. -/
def runSource (f : FanoutInput) (s : ResolvedSource) (rows : List R) : List R :=
  ((rows.filter (E.keeps f.clauses s)).filter fun r =>
    match f.timeRange with
    | some w => (findTimestampColumn s.table).isNone || (w.fromMs ≤ E.time r && E.time r < w.toMs)
    | none => true).take f.perSourceLimit

namespace Delivery

/-! ### A subscription over time -/

/-- The backfill reads the sources in some order; `since` is the cursor that the loop began with. -/
inductive Stage
  | filling (todo : List ResolvedSource)
  | live (since : Int) (tail : Tail)
  deriving DecidableEq

/-- The clock, the rows that are committed, the rows that the client was sent, and where the session is. -/
structure St (R : Type) where
  clock : Int
  stored : ResolvedSource → List R
  sent : ResolvedSource → List R
  stage : Stage

/-- `answers` says of which sources the rows come back; the others end in an error frame. -/
inductive Action (R : Type)
  | tick (ms : Int)
  | commit (s : ResolvedSource) (r : R)
  | fill (s : ResolvedSource) (answers : Bool)
  | done
  | wake (e : LoopEvent) (answers : ResolvedSource → Bool)

def St.init (sub : Sub) (clock : Int) (stored : ResolvedSource → List R) : St R :=
  ⟨clock, stored, fun _ => [], .filling sub.resolved⟩

def St.send (st : St R) (f : FanoutInput) (answers : ResolvedSource → Bool) : ResolvedSource → List R :=
  fun s => st.sent s ++ (f.sources.filter fun x => x = s && answers x).flatMap fun x => runSource E f x (st.stored x)

def step (sub : Sub) (st : St R) : Action R → Option (St R)
  | .tick ms => some { st with clock := ms }
  | .commit s r => some { st with stored := Function.update st.stored s (st.stored s ++ [r]) }
  | .fill s answers =>
    match st.stage with
    | .filling todo =>
      if s ∈ todo then
        some { st with
          sent := st.send E { sub.backfill with sources := [s] } fun _ => answers
          stage := .filling (todo.erase s) }
      else none
    | .live _ _ => none
  | .done =>
    match st.stage with
    | .filling [] =>
      let tail := Tail.start sub st.clock
      some { st with stage := .live tail.cursorMs tail }
    | _ => none
  | .wake e answers =>
    match st.stage with
    | .filling _ => none
    | .live since tail =>
      (tail.arm.on sub st.clock e).map fun (tail', read) =>
        { st with
          stage := .live since tail'
          sent := match read with
            | none => st.sent
            | some f => st.send E f answers }

def wanted (sub : Sub) (st : St R) (s : ResolvedSource) : List R := (st.stored s).filter (E.keeps sub.clauses s)

/-- **What is supposed**: the clock does not go back, a row bears the millisecond of its commit, and no scan finds
more rows of a source between the cursor and the clock than the limit. -/
def Assumed (sub : Sub) (st : St R) : Action R → Prop
  | .tick ms => st.clock ≤ ms
  | .commit _ r => E.time r = st.clock
  | .wake _ _ => ∀ since tail, st.stage = .live since tail → ∀ s ∈ sub.tsSources,
      (Feed.between E.time tail.cursorMs st.clock (wanted E sub st s)).length ≤ incrementalPerSourceLimit
  | .fill _ _ => True
  | .done => True

def scanned (sub : Sub) (t : Tail) : LoopEvent → Option (List ResolvedSource)
  | .resume => some sub.tsSources
  | .fallback => if t.paused = false then some sub.tsSources else none
  | .debounced =>
    if t.arm.debounce = true ∧ t.paused = false ∧ t.pending ≠ [] then some (sub.touched t.pending) else none
  | _ => none

/-- **A step that passes nothing by**: a scan reads every source that has rows between the cursor and the clock, and
gets them; the backfill has sent no row of the instant at which the loop begins, or later. -/
def Covers (sub : Sub) (st : St R) : Action R → Prop
  | .done => ∀ s ∈ sub.tsSources, ∀ r ∈ st.sent s, E.time r < (Tail.start sub st.clock).cursorMs
  | .wake e answers => ∀ since tail, st.stage = .live since tail → ∀ sources, scanned sub tail e = some sources →
      ∀ s ∈ sub.tsSources, (s ∈ sources ∧ answers s = true) ∨ ∀ r ∈ wanted E sub st s,
        since ≤ E.time r → tail.cursorMs ≤ E.time r → st.clock ≤ E.time r
  | _ => True

/-- **Sent exactly once**: of the rows from `since` on, the client has been sent those before `now`, each once. -/
def DeliveredOnce (sub : Sub) (since now : Int) (st : St R) (s : ResolvedSource) : Prop :=
  (Feed.onward E.time since (st.sent s)).Perm (Feed.between E.time since now (wanted E sub st s))

def FullScan (t : Tail) : LoopEvent → Prop
  | .resume => True
  | .fallback => t.paused = false
  | _ => False

/-! ### Scans -/

variable {E} {sub : Sub} {st st' : St R}

theorem touched_subset (pending : List Text) : ∀ s ∈ sub.touched pending, s ∈ sub.tsSources :=
  fun _ hs => (mem_filter.1 hs).1

variable {e : LoopEvent} {sources : List ResolvedSource}

theorem scanned_subset {t : Tail}
    (h : scanned sub t e = some sources) : ∀ s ∈ sources, s ∈ sub.tsSources := by
  cases e with
  | resume =>
    cases h
    exact fun _ => id
  | fallback =>
    rw [scanned] at h
    split_ifs at h
    cases h
    exact fun _ => id
  | debounced =>
    rw [scanned] at h
    split_ifs at h
    cases h
    exact touched_subset _
  | pause | rowsAppended | lagged | heartbeat | ignored => cases h

theorem scanned_nodup (hsub : sub.resolved.Nodup) {t : Tail}
    (h : scanned sub t e = some sources) : sources.Nodup := by
  have hts : sub.tsSources.Nodup := hsub.filter _
  cases e with
  | resume =>
    cases h
    exact hts
  | fallback =>
    rw [scanned] at h
    split_ifs at h
    cases h
    exact hts
  | debounced =>
    rw [scanned] at h
    split_ifs at h
    cases h
    exact hts.filter _
  | pause | rowsAppended | lagged | heartbeat | ignored => cases h

theorem arm_cursorMs (t : Tail) : t.arm.cursorMs = t.cursorMs := by
  rw [Tail.arm]
  split <;> rfl

theorem arm_paused (t : Tail) : t.arm.paused = t.paused := by
  rw [Tail.arm]
  split <;> rfl

theorem arm_pending (t : Tail) : t.arm.pending = t.pending := by
  rw [Tail.arm]
  split <;> rfl

/-- **What a turn of the loop does to the cursor**: a scan moves it to the clock, anything else leaves it. -/
theorem on_eq {t t' : Tail} {nowMs : Int} {read : Option FanoutInput}
    (h : t.arm.on sub nowMs e = some (t', read)) :
    match scanned sub t e with
    | none => t'.cursorMs = t.cursorMs ∧ read = none
    | some sources => t'.cursorMs = nowMs ∧ read = sub.scanIncremental sources t.cursorMs nowMs := by
  cases e with
  | pause | rowsAppended | lagged | heartbeat | ignored =>
    cases h
    exact ⟨arm_cursorMs t, rfl⟩
  | resume =>
    cases h
    exact ⟨rfl, by rw [arm_cursorMs]⟩
  | debounced =>
    rw [Tail.on, arm_paused, arm_pending, arm_cursorMs] at h
    rw [scanned]
    by_cases harm : t.arm.debounce = false
    · rw [if_pos harm] at h
      cases h
    · rw [if_neg harm] at h
      by_cases hwork : t.paused = false ∧ t.pending ≠ []
      · rw [if_pos hwork] at h
        rw [if_pos ⟨by simpa using harm, hwork⟩]
        cases h
        exact ⟨rfl, rfl⟩
      · rw [if_neg hwork] at h
        rw [if_neg fun hall => hwork hall.2]
        cases h
        exact ⟨rfl, rfl⟩
  | fallback =>
    rw [Tail.on, arm_paused, arm_cursorMs] at h
    rw [scanned]
    by_cases hpaused : t.paused = false
    · rw [if_pos hpaused] at h ⊢
      cases h
      exact ⟨rfl, rfl⟩
    · rw [if_neg hpaused] at h ⊢
      cases h
      exact ⟨arm_cursorMs t, rfl⟩

theorem scanIncremental_eq (hsources : ∀ s ∈ sources, s ∈ sub.tsSources) (fromMs toMs : Int) :
    sub.scanIncremental sources fromMs toMs = if toMs ≤ fromMs ∨ sources = [] then none
      else some ⟨sources, sub.clauses, some ⟨fromMs, toMs⟩, incrementalPerSourceLimit⟩ := by
  have hkeys : (sources.filter fun s => sub.resolvedKeys.contains (sourceKey s)) = sources := by
    refine filter_eq_self.2 fun s hs => ?_
    rw [contains_iff_mem]
    exact mem_map_of_mem (hsources s hs)
  rw [Sub.scanIncremental, nextWindow]
  by_cases hle : toMs ≤ fromMs
  · rw [if_pos hle, if_pos (.inl hle)]
  · rw [if_neg hle]
    dsimp only
    rw [hkeys]
    by_cases hnil : sources = []
    · rw [if_pos hnil, if_pos (.inr hnil)]
    · rw [if_neg hnil, if_neg (not_or.2 ⟨hle, hnil⟩)]

theorem send_eq {f : FanoutInput} (hf : f.sources.Nodup) (answers : ResolvedSource → Bool) (s : ResolvedSource) :
    st.send E f answers s =
      st.sent s ++ if s ∈ f.sources ∧ answers s = true then runSource E f s (st.stored s) else [] := by
  have hfilter : (f.sources.filter fun x => x = s && answers x) =
      if s ∈ f.sources ∧ answers s = true then [s] else [] := by
    have hpick : (f.sources.filter fun x => decide (x = s)) = List.replicate (f.sources.count s) s := filter_eq _
    rw [← filter_filter, filter_comm, hpick]
    by_cases hmem : s ∈ f.sources
    · rw [count_eq_one_of_mem hf hmem]
      by_cases hans : answers s = true
      · simp [hmem, hans]
      · simp [hans]
    · rw [count_eq_zero_of_not_mem hmem]
      simp [hmem]
  rw [St.send, hfilter]
  split
  · rw [flatMap_cons, flatMap_nil, append_nil]
  · rw [flatMap_nil]

theorem runSource_window {s : ResolvedSource} (hs : s ∈ sub.tsSources) {fromMs toMs : Int}
    (hcap : (Feed.between E.time fromMs toMs (wanted E sub st s)).length ≤ incrementalPerSourceLimit) :
    runSource E ⟨sources, sub.clauses, some ⟨fromMs, toMs⟩, incrementalPerSourceLimit⟩ s (st.stored s) =
      Feed.between E.time fromMs toMs (wanted E sub st s) := by
  have hts : (findTimestampColumn s.table).isSome = true := (mem_filter.1 hs).2
  have hnone : (findTimestampColumn s.table).isNone = false := by
    rw [Option.isSome_iff_exists] at hts
    obtain ⟨c, hc⟩ := hts
    rw [hc]
    rfl
  rw [← take_of_length_le hcap, runSource]
  dsimp only
  rw [hnone]
  simp [Feed.between, wanted]

/-! ### Sources as feeds -/

def feed (E : Engine R) (sub : Sub) (st : St R) (cursorMs : Int) (s : ResolvedSource) : Feed.State Int R :=
  ⟨wanted E sub st s, st.sent s, cursorMs, st.clock⟩

/-- **A step of the session is a move of the feed of each source**, and one that covers passes nothing by. -/
theorem feed_step (hsub : sub.resolved.Nodup) {since : Int} {tail : Tail} (hlive : st.stage = .live since tail)
    {a : Action R} (hok : Assumed E sub st a) (hstep : step E sub st a = some st') :
    ∃ tail', st'.stage = .live since tail' ∧ ∀ s ∈ sub.tsSources, ∃ m : Feed.Move Int R,
      Feed.Allowed E.time (feed E sub st tail.cursorMs s) m ∧
        feed E sub st' tail'.cursorMs s = (feed E sub st tail.cursorMs s).apply E.time m ∧
          (Covers E sub st a → ¬Feed.Passes E.time since (feed E sub st tail.cursorMs s) m) := by
  cases a with
  | tick ms =>
    cases hstep
    exact ⟨tail, hlive, fun s _ => ⟨.tick ms, hok, rfl, fun _ => id⟩⟩
  | commit src r =>
    cases hstep
    refine ⟨tail, hlive, fun s _ => ?_⟩
    by_cases hs : s = src
    · subst hs
      by_cases hkeep : E.keeps sub.clauses s r = true
      · refine ⟨.store r, hok, ?_, fun _ => id⟩
        simp [feed, Feed.State.apply, wanted, filter_append, hkeep]
      · refine ⟨.tick st.clock, le_rfl, ?_, fun _ => id⟩
        simp [feed, Feed.State.apply, wanted, filter_append, hkeep]
    · refine ⟨.tick st.clock, le_rfl, ?_, fun _ => id⟩
      simp [feed, Feed.State.apply, wanted, Function.update_of_ne hs]
  | fill src answers | done =>
    rw [step, hlive] at hstep
    cases hstep
  | wake e answers =>
    rw [step, hlive] at hstep
    obtain ⟨⟨tail', read⟩, hon, rfl⟩ := Option.map_eq_some_iff.1 hstep
    have heq := on_eq hon
    cases hscan : scanned sub tail e with
    | none =>
      rw [hscan] at heq
      obtain ⟨hcursor, rfl⟩ := heq
      refine ⟨tail', rfl, fun s _ => ⟨.tick st.clock, le_rfl, ?_, fun _ => id⟩⟩
      rw [hcursor]
      rfl
    | some sources =>
      rw [hscan] at heq
      dsimp only at heq
      rw [scanIncremental_eq (scanned_subset hscan)] at heq
      obtain ⟨hcursor, rfl⟩ := heq
      refine ⟨tail', rfl, fun s hs => ?_⟩
      rw [hcursor]
      have hcap := hok since tail hlive s hs
      by_cases hread : s ∈ sources ∧ answers s = true
      · refine ⟨.take, trivial, ?_, fun _ => id⟩
        by_cases hle : st.clock ≤ tail.cursorMs
        · rw [if_pos (.inl hle)]
          simp [feed, Feed.State.apply, wanted, Feed.between_eq_nil_of_le hle]
        · rw [if_neg (not_or.2 ⟨hle, ne_nil_of_mem hread.1⟩)]
          simp only [feed, Feed.State.apply]
          rw [send_eq (scanned_nodup hsub hscan), if_pos hread, runSource_window hs hcap]
          rfl
      · refine ⟨.pass, trivial, ?_, fun hcovers => ?_⟩
        · split_ifs with hnone
          · rfl
          · simp only [feed, Feed.State.apply]
            rw [send_eq (scanned_nodup hsub hscan), if_neg hread, append_nil]
            rfl
        · rintro ⟨r, hr, hsince, hcur, hclock⟩
          rcases hcovers since tail hlive sources hscan s hs with hmem | hall
          · exact hread hmem
          · exact absurd (hall r hr hsince hcur) (not_le.2 hclock)

/-! ### Runs -/

def Inv (E : Engine R) (sub : Sub) (st : St R) : Prop :=
  ∀ since tail, st.stage = .live since tail → ∀ s ∈ sub.tsSources,
    Feed.Sound E.time since (feed E sub st tail.cursorMs s) ∧ Feed.Exact E.time since (feed E sub st tail.cursorMs s)

theorem Inv.init (clock : Int) (stored : ResolvedSource → List R) : Inv E sub (.init sub clock stored) := nofun

theorem Inv.done (hok : Covers E sub st .done) (hstep : step E sub st .done = some st') : Inv E sub st' := by
  rw [step] at hstep
  split at hstep
  · cases hstep
    intro since tail hlive s hs
    cases hlive
    have hnil : Feed.onward E.time (Tail.start sub st.clock).cursorMs (st.sent s) = [] :=
      filter_eq_nil_iff.2 fun r hr => by simpa using hok s hs r hr
    have hexact : Feed.Exact E.time (Tail.start sub st.clock).cursorMs
        (feed E sub st (Tail.start sub st.clock).cursorMs s) := Feed.exact_init hnil
    exact ⟨hexact.sound (.inr rfl), hexact⟩
  · cases hstep

theorem Inv.step (hsub : sub.resolved.Nodup) (h : Inv E sub st) {a : Action R} (hok : Assumed E sub st a)
    (hcovers : Covers E sub st a) (hstep : step E sub st a = some st') : Inv E sub st' := by
  cases hstage : st.stage with
  | filling todo =>
    cases a with
    | done => exact Inv.done hcovers hstep
    | tick ms | commit s r =>
      cases hstep
      intro since tail hlive
      cases hstage.symm.trans hlive
    | fill s answers =>
      rw [Delivery.step, hstage] at hstep
      dsimp only at hstep
      split_ifs at hstep
      cases hstep
      exact nofun
    | wake e answers =>
      rw [Delivery.step, hstage] at hstep
      cases hstep
  | live since tail =>
    obtain ⟨tail', hlive', hfeeds⟩ := feed_step hsub hstage hok hstep
    intro since' tail'' hlive s hs
    cases hlive'.symm.trans hlive
    obtain ⟨m, hallowed, heq, hpasses⟩ := hfeeds s hs
    obtain ⟨hsound, hexact⟩ := h since tail hstage s hs
    rw [heq]
    exact ⟨hsound.apply hallowed, (Feed.exact_apply_iff hsound hallowed).2 ⟨hexact, hpasses hcovers⟩⟩

theorem cursor_of_fullScan {t t' : Tail} {nowMs : Int} {read : Option FanoutInput}
    (hfull : FullScan t e) (h : t.arm.on sub nowMs e = some (t', read)) : t'.cursorMs = nowMs := by
  have heq := on_eq h
  cases e with
  | resume => exact heq.1
  | fallback =>
    rw [scanned, if_pos (show t.paused = false from hfull)] at heq
    exact heq.1
  | pause | rowsAppended | lagged | debounced | heartbeat | ignored => exact hfull.elim

/-- **The live tail delivers once.**  In every run whose steps pass nothing by, after a full scan the client has been
sent every row of every source with a time column from the initial cursor up to the scan, exactly once. -/
theorem delivered_once (hsub : sub.resolved.Nodup) {clock : Int} {stored : ResolvedSource → List R}
    (h : Runs.Reach (step E sub) (fun s a => Assumed E sub s a ∧ Covers E sub s a) (.init sub clock stored) st)
    {since : Int} {tail : Tail} (hlive : st.stage = .live since tail) {e : LoopEvent} (hfull : FullScan tail e)
    {answers : ResolvedSource → Bool} (hok : Assumed E sub st (.wake e answers))
    (hcovers : Covers E sub st (.wake e answers)) (hstep : step E sub st (.wake e answers) = some st') :
    ∀ s ∈ sub.tsSources, DeliveredOnce E sub since st.clock st' s := by
  have hinv : Inv E sub st := h.inv (Inv.init clock stored) fun _ _ _ hi ha hs => hi.step hsub ha.1 ha.2 hs
  have hinv' := hinv.step hsub hok hcovers hstep
  rw [step, hlive] at hstep
  obtain ⟨⟨tail', read⟩, hon, rfl⟩ := Option.map_eq_some_iff.1 hstep
  intro s hs
  have hexact := (hinv' since tail' rfl s hs).2
  rw [Feed.Exact, feed, cursor_of_fullScan hfull hon] at hexact
  exact hexact

/-! ### Two sources -/

/-- A table `db.name` with a column `ts`. -/
def stamped (name : Text) : ResolvedSource := ⟨"db".toList, ⟨name, [⟨"ts", .timestamp .millisecond none⟩]⟩⟩

/-- Everything in `db.a` and `db.b`. -/
def bothTables : Sub := ⟨[stamped ['a'], stamped ['b']], [], none, 500⟩

def instants : Engine Int := ⟨id, fun _ _ _ => true⟩

def twoRows : ResolvedSource → List Int :=
  Function.update (Function.update (fun _ => []) (stamped ['a']) [1]) (stamped ['b']) [2]

theorem length_twoRows (s : ResolvedSource) : (twoRows s).length ≤ 1 := by
  rw [twoRows, Function.update_apply, Function.update_apply]
  split_ifs <;> simp

theorem assumed_wake {st : St Int} (hst : st.stored = twoRows) (e : LoopEvent)
    (answers : ResolvedSource → Bool) : Assumed instants bothTables st (.wake e answers) := by
  intro since tail _ s _
  have hlen : (Feed.between instants.time tail.cursorMs st.clock (wanted instants bothTables st s)).length ≤
      (st.stored s).length := (length_filter_le _ _).trans (length_filter_le _ _)
  rw [hst] at hlen
  exact hlen.trans ((length_twoRows s).trans (by decide))

/-- When the first scan reads all sources, both rows are sent. -/
theorem both_delivered : ∃ (st st' : St Int), Runs.Reach (step instants bothTables)
        (fun s a => Assumed instants bothTables s a ∧ Covers instants bothTables s a)
        (.init bothTables 0 fun _ => []) st ∧ step instants bothTables st (.wake .fallback fun _ => true) = some st' ∧
        ∀ s ∈ bothTables.tsSources, DeliveredOnce instants bothTables 0 st.clock st' s := by
  have h₀ : Runs.Reach (step instants bothTables)
      (fun s a => Assumed instants bothTables s a ∧ Covers instants bothTables s a)
      (.init bothTables 0 fun _ => []) _ := .init
  have h₁ := h₀.step (Action.fill (stamped ['a']) true) ⟨trivial, trivial⟩ rfl
  have h₂ := h₁.step (Action.fill (stamped ['b']) true) ⟨trivial, trivial⟩ rfl
  have h₃ := h₂.step Action.done ⟨trivial, fun s _ r hr => by simp [St.send, runSource, St.init] at hr⟩ rfl
  have h₄ := h₃.step (Action.tick 1) ⟨show (0 : Int) ≤ 1 by decide, trivial⟩ rfl
  have h₅ := h₄.step (Action.commit (stamped ['a']) 1) ⟨rfl, trivial⟩ rfl
  have h₆ := h₅.step (Action.tick 2) ⟨show (1 : Int) ≤ 2 by decide, trivial⟩ rfl
  have h₇ := h₆.step (Action.commit (stamped ['b']) 2) ⟨rfl, trivial⟩ rfl
  have h₈ := h₇.step (Action.tick 3) ⟨show (2 : Int) ≤ 3 by decide, trivial⟩ rfl
  refine ⟨_, _, h₈, rfl, delivered_once (e := .fallback) (by decide) h₈ rfl rfl (assumed_wake rfl _ _) ?_ rfl⟩
  intro since tail hlive sources hscan s hs
  cases hlive
  cases hscan
  exact .inl ⟨hs, rfl⟩

/-- **A row that is never sent.**  It is committed before a scan of the other source, which its own notification comes
after. -/
theorem passed_by : ∃ (st st' : St Int) (tail : Tail),
      Runs.Reach (step instants bothTables) (Assumed instants bothTables) (.init bothTables 0 fun _ => []) st ∧
        st.stage = .live 0 tail ∧ FullScan tail .fallback ∧
        Assumed instants bothTables st (.wake .fallback fun _ => true) ∧
        step instants bothTables st (.wake .fallback fun _ => true) = some st' ∧
        ¬∀ s ∈ bothTables.tsSources, DeliveredOnce instants bothTables 0 st.clock st' s := by
  have h₀ : Runs.Reach (step instants bothTables) (Assumed instants bothTables)
      (.init bothTables 0 fun _ => []) _ := .init
  have h₁ := h₀.step (Action.fill (stamped ['a']) true) trivial rfl
  have h₂ := h₁.step (Action.fill (stamped ['b']) true) trivial rfl
  have h₃ := h₂.step Action.done trivial rfl
  have h₄ := h₃.step (Action.tick 1) (show (0 : Int) ≤ 1 by decide) rfl
  have h₅ := h₄.step (Action.commit (stamped ['a']) 1) rfl rfl
  have h₆ := h₅.step (Action.tick 2) (show (1 : Int) ≤ 2 by decide) rfl
  have h₇ := h₆.step (Action.commit (stamped ['b']) 2) rfl rfl
  have h₈ := h₇.step (Action.wake (.rowsAppended "db".toList ['a']) fun _ => true) (assumed_wake rfl _ _) rfl
  have h₉ := h₈.step (Action.tick 5) (show (2 : Int) ≤ 5 by decide) rfl
  -- only `db.a` is scanned, and the cursor moves past the row of `db.b`
  have h₁₀ := h₉.step (Action.wake .debounced fun _ => true) (assumed_wake rfl _ _) rfl
  have h₁₁ := h₁₀.step (Action.wake (.rowsAppended "db".toList ['b']) fun _ => true) (assumed_wake rfl _ _) rfl
  have h₁₂ := h₁₁.step (Action.tick 9) (show (5 : Int) ≤ 9 by decide) rfl
  refine ⟨_, _, _, h₁₂, rfl, rfl, assumed_wake rfl _ _, rfl, fun hall => ?_⟩
  have hrow := hall (stamped ['b']) (by decide)
  exact absurd hrow.length_eq (by decide)
end Delivery

end Discover
