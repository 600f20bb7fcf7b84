/-
**Incremental fetches from GitHub.**

A tick lists the pulls and the issues that were changed since a stored time, newest first and page by page, and parses
the files of the default branch's head.
-/

import Mathlib.Tactic
import Pensieve.Runs

namespace Github

open List

/-! ### Pages -/

inductive StopReason
  | done
  | pageCap
  | rateLimited
  deriving DecidableEq

inductive DataSourceError
  | transient
  | permanent
  deriving DecidableEq

/-- What a request for a page meets: the page, with the rate limit below the floor or not, or an error. -/
inductive Reply
  | page (low : Bool)
  | error (e : DataSourceError)
  deriving DecidableEq

variable {α : Type}

/-- `paginate`, from page `p` of a list on, with as many more pages as the cap leaves. -/
def paginateFrom (net : ℕ → Reply) (p : ℕ) : ℕ → List α → Except DataSourceError (List α × StopReason)
  | left, items =>
    match net p with
    | .error e => .error e
    | .page true => .ok (items.take 100, .rateLimited)
    | .page false =>
      match left with
      | 0 => .ok (items.take 100, .pageCap)
      | left + 1 =>
        if items.length ≤ 100 then .ok (items, .done)
        else (paginateFrom net (p + 1) left (items.drop 100)).map fun r => (items.take 100 ++ r.1, r.2)

def paginate (net : ℕ → Reply) (maxPages : ℕ) (items : List α) : Except DataSourceError (List α × StopReason) :=
  paginateFrom net 0 (maxPages - 1) items

def pagesFrom (net : ℕ → Reply) (p : ℕ) : ℕ → ℕ
  | 0 => 1
  | left + 1 => if net p = .page true then 1 else pagesFrom net (p + 1) left + 1

variable {net : ℕ → Reply} {p left maxPages : ℕ} {items xs : List α} {stop : StopReason}

theorem one_le_pagesFrom : 1 ≤ pagesFrom net p left := by
  cases left with
  | zero => exact le_rfl
  | succ left =>
    rw [pagesFrom]
    split <;> omega

theorem paginateFrom_eq_ok (h : paginateFrom net p left items = .ok (xs, stop)) :
    xs = items.take (100 * pagesFrom net p left) ∧ (stop ≠ .rateLimited → xs = items.take (100 * (left + 1)) ∧
      (100 * (left + 1) < items.length → ∀ q ≤ left, net (p + q) = .page false)) := by
  induction left generalizing p items xs with
  | zero =>
    unfold paginateFrom at h
    cases hnet : net p with
    | error e => simp [hnet] at h
    | page low => cases low <;> simp_all [pagesFrom]
  | succ left ih =>
    unfold paginateFrom at h
    cases hnet : net p with
    | error e => simp [hnet] at h
    | page low =>
      cases low with
      | true => simp_all [pagesFrom]
      | false =>
        simp only [hnet] at h
        rw [pagesFrom, if_neg (by simp [hnet])]
        split at h
        next hshort =>
          obtain ⟨rfl, rfl⟩ := Prod.mk.inj (Except.ok.inj h)
          have hone : 1 ≤ pagesFrom net (p + 1) left := one_le_pagesFrom
          exact ⟨(take_of_length_le (by omega)).symm, fun _ => ⟨(take_of_length_le (by omega)).symm, by omega⟩⟩
        next hlong =>
          cases hrest : paginateFrom net (p + 1) left (items.drop 100) with
          | error e => simp [hrest, Except.map] at h
          | ok r =>
            obtain ⟨ys, stop'⟩ := r
            simp only [hrest, Except.map, Except.ok.injEq, Prod.mk.injEq] at h
            obtain ⟨rfl, rfl⟩ := h
            obtain ⟨hpages, hcap⟩ := ih hrest
            have hsplit : ∀ n, items.take 100 ++ (items.drop 100).take (100 * n) = items.take (100 * (n + 1)) := by
              intro n
              rw [← take_add, Nat.mul_add, Nat.add_comm, Nat.mul_one]
            refine ⟨hpages ▸ hsplit _, fun hstop => ⟨(hcap hstop).1 ▸ hsplit _, fun hcut q hq => ?_⟩⟩
            rcases q with - | q
            · exact hnet
            · have hnext := (hcap hstop).2 (by rw [length_drop]; omega) q (by omega)
              rwa [← Nat.add_assoc, Nat.add_right_comm]

theorem paginate_eq_ok (h : paginate net maxPages items = .ok (xs, stop)) :
    xs = items.take (100 * pagesFrom net 0 (maxPages - 1)) :=
  (paginateFrom_eq_ok h).1

def Uncut (net : ℕ → Reply) (maxPages : ℕ) (items : List α) : Prop :=
  items.length ≤ 100 * maxPages ∨ ∃ p < maxPages, net p ≠ .page false

theorem Uncut.eq (hcut : Uncut net maxPages items) (hmax : 1 ≤ maxPages)
    (h : paginate net maxPages items = .ok (xs, stop)) (hstop : stop ≠ .rateLimited) : xs = items := by
  obtain ⟨htake, hread⟩ := (paginateFrom_eq_ok h).2 hstop
  rw [Nat.sub_add_cancel hmax] at htake hread
  rw [htake]
  apply take_of_length_le
  by_contra hlong
  obtain hshort | ⟨p, hp, hbad⟩ := hcut
  · exact hlong hshort
  · have hgood := hread (by omega) p (by omega)
    rw [Nat.zero_add] at hgood
    exact hbad hgood

def newest (seen : Option ℕ) (times : List ℕ) : Option ℕ :=
  times.foldl (fun newest t =>
    match newest with
    | some n => if n < t then some t else some n
    | none => some t) seen

theorem newest_cases {seen : Option ℕ} {times : List ℕ} {c : ℕ} (h : newest seen times = some c) :
    seen = some c ∨ c ∈ times := by
  induction times generalizing seen with
  | nil => exact .inl h
  | cons t times ih =>
    rcases ih h with ht | ht
    · cases seen with
      | none => exact .inr (Option.some.inj ht ▸ mem_cons_self)
      | some n =>
        dsimp only at ht
        split at ht
        · exact .inr (Option.some.inj ht ▸ mem_cons_self)
        · exact .inl ht
    · exact .inr (mem_cons_of_mem _ ht)

/-! ### Pulls and issues -/

/-- A pull or an issue in the state that the change `rev` has left it in. -/
structure Item where
  id : ℕ
  updatedAt : ℕ
  rev : ℕ
  deriving DecidableEq

/-- The pulls, or the issues, of a repository: as they are, in all of their states, and what the ticks have returned;
`since` is the stored cursor. -/
structure Feed where
  upstream : List Item
  history : List Item
  since : Option ℕ
  returned : List Item
  deriving DecidableEq

namespace Feed

def start : Feed := ⟨[], [], none, []⟩

def change (id now : ℕ) (f : Feed) : Feed :=
  let x : Item := ⟨id, now, f.history.length⟩
  { f with upstream := x :: f.upstream.filter (·.id ≠ id), history := x :: f.history }

def Lists (f : Feed) (items : List Item) : Prop :=
  items.Perm (f.upstream.filter fun x => ∀ c ∈ f.since, c ≤ x.updatedAt) ∧
    items.Pairwise fun x y => y.updatedAt ≤ x.updatedAt

instance (f : Feed) (items : List Item) : Decidable (f.Lists items) := inferInstanceAs (Decidable (_ ∧ _))

/-- The part of `run_once` for pulls, or for issues. -/
def fetch (net : ℕ → Reply) (maxPages : ℕ) (items : List Item) (f : Feed) : Except DataSourceError Feed :=
  match paginate net maxPages items with
  | .ok (items, stop) =>
    .ok { f with
      returned := f.returned ++ items
      since := if stop = .rateLimited then f.since else newest f.since (items.map Item.updatedAt) }
  | .error .transient => .error .transient
  | .error .permanent => .ok f

def Kept (f : Feed) : Prop :=
  ∀ x ∈ f.history, ∀ c ∈ f.since, x.updatedAt < c → ∃ y ∈ f.returned, y.id = x.id ∧ x.rev ≤ y.rev

structure Inv (now : ℕ) (f : Feed) : Prop where
  current : ∀ x ∈ f.history, ∃ y ∈ f.upstream, y.id = x.id ∧ x.rev ≤ y.rev ∧ x.updatedAt ≤ y.updatedAt
  known : ∀ x ∈ f.upstream, x ∈ f.history
  past : ∀ x ∈ f.history, x.updatedAt ≤ now ∧ x.rev < f.history.length
  since_le : ∀ c ∈ f.since, c ≤ now
  kept : f.Kept

variable {f f' : Feed} {now now' id : ℕ} {items : List Item}

theorem inv_start : start.Inv now := by
  constructor <;> simp [start, Kept]

theorem Inv.mono (h : f.Inv now) (hle : now ≤ now') : f.Inv now' where
  current := h.current
  known := h.known
  past x hx := ⟨(h.past x hx).1.trans hle, (h.past x hx).2⟩
  since_le c hc := (h.since_le c hc).trans hle
  kept := h.kept

theorem Inv.change (h : f.Inv now) : (f.change id now).Inv now where
  current x hx := by
    rcases mem_cons.1 hx with rfl | hx
    · exact ⟨_, mem_cons_self, rfl, le_rfl, le_rfl⟩
    · obtain ⟨y, hy, hid, hrev, hupdated⟩ := h.current x hx
      by_cases hnew : x.id = id
      · exact ⟨_, mem_cons_self, hnew.symm, (h.past x hx).2.le, (h.past x hx).1⟩
      · refine ⟨y, mem_cons_of_mem _ (mem_filter.2 ⟨hy, ?_⟩), hid, hrev, hupdated⟩
        rw [hid]
        exact decide_eq_true hnew
  known x hx := by
    rcases mem_cons.1 hx with rfl | hx
    · exact mem_cons_self
    · exact mem_cons_of_mem _ (h.known x (mem_of_mem_filter hx))
  past x hx := by
    rw [Feed.change, length_cons]
    rcases mem_cons.1 hx with rfl | hx
    · exact ⟨le_rfl, Nat.lt_succ_self _⟩
    · exact ⟨(h.past x hx).1, (h.past x hx).2.trans (Nat.lt_succ_self _)⟩
  since_le := h.since_le
  kept x hx c hc hlt := by
    rcases mem_cons.1 hx with rfl | hx
    · -- the cursor is not later than the clock
      exact absurd (h.since_le c hc) (not_le.2 hlt)
    · exact h.kept x hx c hc hlt

variable {net : ℕ → Reply} {maxPages : ℕ}

theorem Inv.fetch (h : f.Inv now) (hmax : 1 ≤ maxPages) (hlists : f.Lists items) (hcut : Uncut net maxPages items)
    (hf : f.fetch net maxPages items = .ok f') : f'.Inv now := by
  rw [Feed.fetch] at hf
  split at hf
  next xs stop hpages =>
    cases hf
    have hmem : ∀ x ∈ xs, x ∈ f.upstream := by
      intro x hx
      rw [paginate_eq_ok hpages] at hx
      exact mem_of_mem_filter (hlists.1.subset (mem_of_mem_take hx))
    refine ⟨h.current, h.known, h.past, fun c hc => ?_, fun x hx c hc hlt => ?_⟩
    · split at hc
      · exact h.since_le c hc
      · rcases newest_cases hc with hold | hnew
        · exact h.since_le c hold
        · obtain ⟨x, hx, rfl⟩ := mem_map.1 hnew
          exact (h.past x (h.known x (hmem x hx))).1
    · -- returned before, or changed since the old cursor and so on the list
      by_cases hold : ∃ c' ∈ f.since, x.updatedAt < c'
      · obtain ⟨c', hc', hlt'⟩ := hold
        obtain ⟨y, hy, hyx⟩ := h.kept x hx c' hc' hlt'
        exact ⟨y, mem_append_left _ hy, hyx⟩
      · push Not at hold
        split at hc
        · exact absurd hlt (not_lt.2 (hold c hc))
        next hstop =>
          obtain rfl := hcut.eq hmax hpages hstop
          obtain ⟨y, hy, hid, hrev, hupdated⟩ := h.current x hx
          refine ⟨y, mem_append_right _ (hlists.1.mem_iff.2 (mem_filter.2 ⟨hy, ?_⟩)), hid, hrev⟩
          exact decide_eq_true fun c' hc' => (hold c' hc').trans hupdated
  next => cases hf
  next => exact Except.ok.inj hf ▸ h

end Feed

/-! ### The code graph -/

/-- What a tick depends on: the files of each commit in the order in which a walk meets them, those that pass the
filters, and those that are read as text. -/
structure Config (S F : Type) where
  maxPages : ℕ
  one_le_maxPages : 1 ≤ maxPages
  files : S → List F
  keep : F → Bool
  readable : F → Bool
  maxFiles : ℕ

structure World (S F : Type) where
  now : ℕ
  pulls : Feed
  issues : Feed
  treeShaIngested : Option S
  parsed : List (S × F)

/-- What a tick meets: the two lists, the head of the default branch, and the commit that a clone checks out. -/
structure Tick (S : Type) where
  pullsNet : ℕ → Reply
  pulls : List Item
  issuesNet : ℕ → Reply
  issues : List Item
  head : Option S
  checkout : Option S

inductive Action (S : Type)
  | changePull (id now : ℕ)
  | changeIssue (id now : ℕ)
  | runOnce (t : Tick S)
  | failed

variable {S F : Type}

def World.start : World S F := ⟨0, .start, .start, none, []⟩

def walkSourceFiles (cfg : Config S F) (sha : S) : List F :=
  ((cfg.files sha).filter fun f => cfg.keep f && cfg.readable f).take (max cfg.maxFiles 1)

variable [DecidableEq S]

def codeGraph (cfg : Config S F) (t : Tick S) (w : World S F) : World S F :=
  match t.head with
  | none => w
  | some head =>
    if w.treeShaIngested = some head then w
    else match t.checkout with
      | none => w
      | some sha =>
        { w with
          treeShaIngested := some head
          parsed := w.parsed ++ (walkSourceFiles cfg sha).map fun f => (sha, f) }

def runOnce (cfg : Config S F) (t : Tick S) (w : World S F) : World S F :=
  match w.pulls.fetch t.pullsNet cfg.maxPages t.pulls with
  | .error _ => w
  | .ok pulls =>
    match w.issues.fetch t.issuesNet cfg.maxPages t.issues with
    | .error _ => w
    | .ok issues => codeGraph cfg t { w with pulls := pulls, issues := issues }

def step (cfg : Config S F) (w : World S F) : Action S → Option (World S F)
  | .changePull id now => if w.now ≤ now then some { w with now := now, pulls := w.pulls.change id now } else none
  | .changeIssue id now => if w.now ≤ now then some { w with now := now, issues := w.issues.change id now } else none
  | .runOnce t => if w.pulls.Lists t.pulls ∧ w.issues.Lists t.issues then some (runOnce cfg t w) else none
  | .failed => some w

/-! ### Nothing skipped -/

def World.Parsed (cfg : Config S F) (w : World S F) : Prop :=
  ∀ sha ∈ w.treeShaIngested, ∀ f ∈ cfg.files sha, cfg.keep f → (sha, f) ∈ w.parsed

/-- A tick whose lists are not cut by the page cap, and whose clone is of the head, readable, and within the file
cap. -/
def Heeds (cfg : Config S F) (_ : World S F) : Action S → Prop
  | .runOnce t =>
    Uncut t.pullsNet cfg.maxPages t.pulls ∧ Uncut t.issuesNet cfg.maxPages t.issues ∧
      ∀ sha ∈ t.checkout, t.head = some sha ∧ ((cfg.files sha).filter cfg.keep).length ≤ cfg.maxFiles ∧
        ∀ f ∈ cfg.files sha, cfg.keep f → cfg.readable f
  | _ => True

structure World.Inv (cfg : Config S F) (w : World S F) : Prop where
  pulls : w.pulls.Inv w.now
  issues : w.issues.Inv w.now
  parsed : w.Parsed cfg

variable {cfg : Config S F} {w w' : World S F} {t : Tick S} {a : Action S}

omit [DecidableEq S] in
theorem mem_walkSourceFiles {sha : S} {f : F} (hcap : ((cfg.files sha).filter cfg.keep).length ≤ cfg.maxFiles)
    (hread : ∀ f ∈ cfg.files sha, cfg.keep f → cfg.readable f) (hf : f ∈ cfg.files sha) (hkeep : cfg.keep f) :
    f ∈ walkSourceFiles cfg sha := by
  have heq : ((cfg.files sha).filter fun f => cfg.keep f && cfg.readable f) = (cfg.files sha).filter cfg.keep := by
    refine filter_congr fun x hx => ?_
    cases hk : cfg.keep x with
    | false => rfl
    | true => exact hread x hx hk
  rw [walkSourceFiles, heq, take_of_length_le (hcap.trans (le_max_left _ _))]
  exact mem_filter.2 ⟨hf, hkeep⟩

theorem World.Inv.codeGraph (h : w.Inv cfg) (ht : Heeds cfg w (.runOnce t)) : (codeGraph cfg t w).Inv cfg := by
  rw [Github.codeGraph]
  split
  next => exact h
  next head hhead =>
    split
    · exact h
    split
    next => exact h
    next sha hsha =>
      obtain ⟨hsame, hcap, hread⟩ := ht.2.2 sha hsha
      obtain rfl := Option.some.inj (hhead.symm.trans hsame)
      refine ⟨h.pulls, h.issues, fun sha' hsha' f hf hkeep => ?_⟩
      obtain rfl := Option.some.inj hsha'
      exact mem_append_right _ (mem_map_of_mem (mem_walkSourceFiles hcap hread hf hkeep))

theorem World.Inv.step (h : w.Inv cfg) (ha : Heeds cfg w a) (hs : step cfg w a = some w') : w'.Inv cfg := by
  cases a with
  | changePull id now =>
    obtain ⟨hnow, heq⟩ := Option.ite_none_right_eq_some.1 hs
    cases heq
    exact ⟨(h.pulls.mono hnow).change, h.issues.mono hnow, h.parsed⟩
  | changeIssue id now =>
    obtain ⟨hnow, heq⟩ := Option.ite_none_right_eq_some.1 hs
    cases heq
    exact ⟨h.pulls.mono hnow, (h.issues.mono hnow).change, h.parsed⟩
  | runOnce t =>
    obtain ⟨⟨hpulls, hissues⟩, heq⟩ := Option.ite_none_right_eq_some.1 hs
    cases heq
    rw [runOnce]
    split
    next => exact h
    next pulls hp =>
      split
      next => exact h
      next issues hi =>
        refine World.Inv.codeGraph ⟨?_, ?_, h.parsed⟩ ha
        · exact h.pulls.fetch cfg.one_le_maxPages hpulls ha.1 hp
        · exact h.issues.fetch cfg.one_le_maxPages hissues ha.2.1 hi
  | failed =>
    cases hs
    exact h

/-- **Ticks that are not cut skip nothing.** -/
theorem kept_of_heeds (h : Runs.Reach (step cfg) (Heeds cfg) .start w) :
    w.pulls.Kept ∧ w.issues.Kept ∧ w.Parsed cfg := by
  have hinv : w.Inv cfg := by
    refine h.inv ⟨Feed.inv_start, Feed.inv_start, by simp [World.Parsed, World.start]⟩ ?_
    exact fun w a w' hw ha hs => hw.step ha hs
  exact ⟨hinv.pulls.kept, hinv.issues.kept, hinv.parsed⟩

def onePage : Config ℕ ℕ := ⟨1, le_rfl, fun _ => [0, 1], fun _ => true, fun _ => true, 2⟩

def answers : ℕ → Reply := fun _ => .page false

def opened (n : ℕ) : List Item := (range n).reverse.map fun i => ⟨i, i, i⟩

def openAll (n : ℕ) : List (Action ℕ) := (range n).map fun i => .changePull i i

def tick (n : ℕ) : Tick ℕ := ⟨answers, opened n, answers, [], some 7, some 7⟩

theorem kept_of_heeds_two : ∃ w, Runs.Reach (step onePage) (Heeds onePage) .start w ∧ w.treeShaIngested = some 7 ∧
    w.pulls.Kept ∧ w.issues.Kept ∧ w.Parsed onePage := by
  have hopen : Runs.Reach (step onePage) (Heeds onePage) .start _ :=
    .step (.changePull 1 1) (.step (.changePull 0 0) .init trivial rfl) trivial rfl
  have hheeds : ∀ w, Heeds onePage w (.runOnce (tick 2)) := by
    refine fun w => ⟨.inl (by decide), .inl (by decide), fun sha hsha => ?_⟩
    obtain rfl := Option.some.inj hsha
    exact ⟨rfl, by decide, fun f hf hkeep => rfl⟩
  have htick := hopen.step (.runOnce (tick 2)) (hheeds _) rfl
  exact ⟨_, htick, rfl, kept_of_heeds htick⟩

/-- **With a page cap of one, the oldest of 101 pulls is skipped.** -/
theorem oldest_pull_skipped : ∃ w, Runs.Reach (step onePage) Runs.Free .start w ∧ ¬ w.pulls.Kept := by
  have hrun : (Runs.run (step onePage) Runs.Free .start (openAll 101 ++ [.runOnce (tick 101)])).any
      (fun w => ⟨0, 0, 0⟩ ∈ w.pulls.history ∧ w.pulls.since = some 100 ∧ ∀ y ∈ w.pulls.returned, y.id ≠ 0) = true := by
    decide +kernel
  obtain ⟨w, hw, hskip⟩ := (Option.any_eq_true _ _).1 hrun
  obtain ⟨hold, hsince, hreturned⟩ := of_decide_eq_true hskip
  refine ⟨w, Runs.reach_of_run hw, fun hkept => ?_⟩
  obtain ⟨y, hy, hid, -⟩ := hkept _ hold 100 hsince (by decide)
  exact hreturned y hy hid

end Github
