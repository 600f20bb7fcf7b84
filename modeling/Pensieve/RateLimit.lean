/-
**The token buckets of the ingest path.**

Every key has a bucket that fills at `rps` tokens a second up to `burst`; a request takes one token,
or is turned away with the time after which one will be there.
-/

import Mathlib.Data.Rat.Star
import Mathlib.Tactic

namespace RateLimit

open List

structure Limits where
  rps : ℚ
  burst : ℚ
  rps_pos : 0 < rps
  one_le_burst : 1 ≤ burst

/-- `limits`, from what the two variables parse to. -/
def limits (rateRps rateBurst : Option ℚ) : Option Limits :=
  let rps := rateRps.getD 0
  if h : rps ≤ 0 then none
  else some ⟨rps, max (rateBurst.getD (rps * 2)) 1, not_le.1 h, le_max_right _ _⟩

structure Bucket where
  tokens : ℚ
  last : ℚ
  deriving DecidableEq

abbrev Answer := Except ℚ Unit

def refillAndTake (tokens elapsedSecs rps burst : ℚ) : ℚ × Answer :=
  let refilled := min (tokens + max elapsedSecs 0 * rps) burst
  if 1 ≤ refilled then (refilled - 1, .ok ())
  else
    let retry := if 0 < rps then (1 - refilled) / rps else 1
    (refilled, .error (max retry (1 / 1000)))

variable {K : Type}

abbrev Store (K : Type) := K → Option Bucket

def check [DecidableEq K] (limits : Option Limits) (key : K) (now : ℚ) (g : Store K) : Store K × Answer :=
  match limits with
  | none => (g, .ok ())
  | some lim =>
    let b := (g key).getD ⟨lim.burst, now⟩
    let elapsed := max (now - b.last) 0
    let out := refillAndTake b.tokens elapsed lim.rps lim.burst
    (Function.update g key (some ⟨out.1, now⟩), out.2)

structure Request (K : Type) where
  key : K
  now : ℚ

structure St (K : Type) where
  store : Store K
  log : List (Request K × Answer)

def St.start : St K := ⟨fun _ => none, []⟩

def St.meter [DecidableEq K] (lim : Limits) (st : St K) (r : Request K) : St K :=
  let out := check (some lim) r.key r.now st.store
  ⟨out.1, st.log ++ [(r, out.2)]⟩

def run [DecidableEq K] (lim : Limits) (reqs : List (Request K)) : St K := reqs.foldl (St.meter lim) .start

/-- How many requests of a key have been admitted within `[s, t]`. -/
def St.admitted [DecidableEq K] (st : St K) (key : K) (s t : ℚ) : ℕ :=
  (st.log.filter fun e => e.1.key = key ∧ s ≤ e.1.now ∧ e.1.now ≤ t ∧ e.2.isOk).length

/-! ### One request -/

variable {lim : Limits} {st : St K} {r : Request K} {key : K} {s t : ℚ}

def St.level (lim : Limits) (st : St K) (r : Request K) : ℚ :=
  let b := (st.store r.key).getD ⟨lim.burst, r.now⟩
  min (b.tokens + max (r.now - b.last) 0 * lim.rps) lim.burst

def St.taken (lim : Limits) (st : St K) (r : Request K) : ℕ := if 1 ≤ st.level lim r then 1 else 0

theorem level_le (lim : Limits) (st : St K) (r : Request K) : st.level lim r ≤ lim.burst := min_le_right _ _

theorem level_eq_refilled {b : Bucket} (hb : st.store r.key = some b) (hlast : b.last ≤ r.now) :
    st.level lim r = min (b.tokens + (r.now - b.last) * lim.rps) lim.burst := by
  rw [St.level, hb, Option.getD_some, max_eq_left (sub_nonneg.2 hlast)]

theorem taken_le_level (h : 0 ≤ st.level lim r) : (st.taken lim r : ℚ) ≤ st.level lim r := by
  rw [St.taken]
  split
  · rwa [Nat.cast_one]
  · rwa [Nat.cast_zero]

def Leveled (lim : Limits) (st : St K) : Prop := ∀ key b, st.store key = some b → 0 ≤ b.tokens ∧ b.tokens ≤ lim.burst

theorem Leveled.level_nonneg (h : Leveled lim st) (r : Request K) : 0 ≤ st.level lim r := by
  have hburst : (0 : ℚ) ≤ lim.burst := zero_le_one.trans lim.one_le_burst
  refine le_min (add_nonneg ?_ (mul_nonneg (le_max_right _ _) lim.rps_pos.le)) hburst
  cases hb : st.store r.key with
  | none => exact hburst
  | some b => exact (h _ _ hb).1

variable [DecidableEq K]

theorem check_eq (lim : Limits) (st : St K) (r : Request K) : check (some lim) r.key r.now st.store =
      (Function.update st.store r.key (some ⟨st.level lim r - st.taken lim r, r.now⟩),
        if 1 ≤ st.level lim r then .ok ()
        else .error (max ((1 - st.level lim r) / lim.rps) (1 / 1000))) := by
  rw [check, refillAndTake, max_eq_left (le_max_right _ _), if_pos lim.rps_pos, St.taken]
  by_cases h : 1 ≤ st.level lim r
  · rw [if_pos h, if_pos h, Nat.cast_one]
    simp only [St.level] at h ⊢
    rw [if_pos h]
  · rw [if_neg h, if_neg h, Nat.cast_zero, sub_zero]
    simp only [St.level] at h ⊢
    rw [if_neg h]

theorem store_meter_self (lim : Limits) (st : St K) (r : Request K) :
    (st.meter lim r).store r.key = some ⟨st.level lim r - st.taken lim r, r.now⟩ := by
  simp only [St.meter, check_eq, Function.update_self]

theorem store_meter_of_ne (h : r.key ≠ key) : (st.meter lim r).store key = st.store key := by
  simp only [St.meter, check_eq, Function.update_of_ne h.symm]

variable {reqs : List (Request K)}

theorem store_foldl_of_ne (h : ∀ r ∈ reqs, r.key ≠ key) : (reqs.foldl (St.meter lim) st).store key = st.store key := by
  induction reqs generalizing st with
  | nil => rfl
  | cons r reqs ih =>
    rw [foldl_cons, ih fun q hq => h q (mem_cons_of_mem _ hq), store_meter_of_ne (h r mem_cons_self)]

theorem admitted_meter (lim : Limits) (st : St K) (r : Request K) (key : K) (s t : ℚ) :
    (st.meter lim r).admitted key s t = st.admitted key s t +
      if r.key = key ∧ s ≤ r.now ∧ r.now ≤ t then st.taken lim r else 0 := by
  simp only [St.admitted, St.meter, check_eq, filter_append, length_append, St.taken]
  by_cases hin : r.key = key ∧ s ≤ r.now ∧ r.now ≤ t <;> by_cases h1 : 1 ≤ st.level lim r <;>
    simp [hin, h1, Except.isOk, Except.toBool]

theorem Leveled.meter (h : Leveled lim st) (r : Request K) : Leveled lim (st.meter lim r) := by
  intro key b hb
  by_cases hkey : r.key = key
  · subst hkey
    cases (store_meter_self lim st r).symm.trans hb
    exact ⟨sub_nonneg.2 (taken_le_level (h.level_nonneg r)),
      (sub_le_self _ (Nat.cast_nonneg _)).trans (level_le lim st r)⟩
  · exact h key b (store_meter_of_ne hkey ▸ hb)

/-! ### Windows -/

/-- **What `[s, t]` has admitted so far**; no request has been later than `clock`. -/
structure Window (lim : Limits) (st : St K) (key : K) (s t clock : ℚ) : Prop where
  leveled : Leveled lim st
  past : ∀ b, st.store key = some b → b.last ≤ clock
  fresh : st.store key = none → st.admitted key s t = 0
  early : ∀ b, st.store key = some b → b.last < s → st.admitted key s t = 0
  level : ∀ b, st.store key = some b → s ≤ b.last → b.last ≤ t →
    st.admitted key s t + b.tokens ≤ lim.burst + lim.rps * (b.last - s)
  bound : st.admitted key s t ≤ lim.burst + lim.rps * (t - s)

variable {clock : ℚ}

theorem Window.found (h : Window lim st r.key s t clock) (hclock : clock ≤ r.now) (hs : s ≤ r.now) (ht : r.now ≤ t) :
    st.admitted r.key s t + st.level lim r ≤ lim.burst + lim.rps * (r.now - s) := by
  have hle := level_le lim st r
  have hrun : 0 ≤ lim.rps * (r.now - s) := mul_nonneg lim.rps_pos.le (sub_nonneg.2 hs)
  cases hb : st.store r.key with
  | none =>
    rw [h.fresh hb, Nat.cast_zero]
    linarith
  | some b =>
    have hlast := (h.past b hb).trans hclock
    rcases lt_or_ge b.last s with hearly | hin
    · rw [h.early b hb hearly, Nat.cast_zero]
      linarith
    · have hsum := h.level b hb hin (hlast.trans ht)
      have hfill : st.level lim r ≤ b.tokens + (r.now - b.last) * lim.rps :=
        (level_eq_refilled hb hlast).trans_le (min_le_left _ _)
      calc (st.admitted r.key s t : ℚ) + st.level lim r
          ≤ st.admitted r.key s t + (b.tokens + (r.now - b.last) * lim.rps) := by linarith
        _ ≤ lim.burst + lim.rps * (b.last - s) + (r.now - b.last) * lim.rps := by linarith
        _ = lim.burst + lim.rps * (r.now - s) := by ring

theorem Window.meter (h : Window lim st key s t clock) (hclock : clock ≤ r.now) :
    Window lim (st.meter lim r) key s t r.now := by
  have hcount := admitted_meter lim st r key s t
  by_cases hkey : r.key = key
  · subst hkey
    have hst := store_meter_self lim st r
    have hpast : ∀ b, (st.meter lim r).store r.key = some b → b.last ≤ r.now := fun b hb => by
      cases hst.symm.trans hb
      exact le_rfl
    have hfresh : (st.meter lim r).store r.key ≠ none := fun hb => by cases hst.symm.trans hb
    by_cases hin : s ≤ r.now ∧ r.now ≤ t
    · have hfound := h.found hclock hin.1 hin.2
      have htaken := taken_le_level (h.leveled.level_nonneg r)
      have hrate : lim.rps * (r.now - s) ≤ lim.rps * (t - s) :=
        mul_le_mul_of_nonneg_left (sub_le_sub_right hin.2 s) lim.rps_pos.le
      rw [if_pos ⟨rfl, hin⟩] at hcount
      refine ⟨h.leveled.meter r, hpast, fun hb => absurd hb hfresh, fun b hb hlt => ?_, fun b hb _ _ => ?_, ?_⟩
      · cases hst.symm.trans hb
        exact absurd hin.1 hlt.not_ge
      · cases hst.symm.trans hb
        rw [hcount]
        push_cast
        linarith
      · rw [hcount]
        push_cast
        linarith
    · rw [if_neg fun hok => hin hok.2, add_zero] at hcount
      refine ⟨h.leveled.meter r, hpast, fun hb => absurd hb hfresh, fun b hb hlt => ?_,
        fun b hb hs ht => ?_, hcount ▸ h.bound⟩
      · cases hst.symm.trans hb
        rw [hcount]
        cases hb' : st.store r.key with
        | none => exact h.fresh hb'
        | some b => exact h.early b hb' (((h.past b hb').trans hclock).trans_lt hlt)
      · cases hst.symm.trans hb
        exact absurd ⟨hs, ht⟩ hin
  · have hsame : (st.meter lim r).store key = st.store key := store_meter_of_ne hkey
    rw [if_neg fun hok => hkey hok.1, add_zero] at hcount
    exact ⟨h.leveled.meter r, fun b hb => (h.past b (hsame ▸ hb)).trans hclock,
      fun hb => hcount ▸ h.fresh (hsame ▸ hb), fun b hb => hcount ▸ h.early b (hsame ▸ hb),
      fun b hb => hcount ▸ h.level b (hsame ▸ hb), hcount ▸ h.bound⟩

theorem Window.foldl (h : Window lim st key s t clock)
    (hmono : reqs.Pairwise fun a b => a.now ≤ b.now) (hclock : ∀ r ∈ reqs, clock ≤ r.now) :
    ∃ clock', Window lim (reqs.foldl (St.meter lim) st) key s t clock' := by
  induction reqs generalizing st clock with
  | nil => exact ⟨clock, h⟩
  | cons r reqs ih =>
    obtain ⟨hr, hrest⟩ := pairwise_cons.1 hmono
    exact ih (h.meter (hclock r mem_cons_self)) hrest hr

theorem Window.start (hst : s ≤ t) : Window lim (.start : St K) key s t clock where
  leveled := nofun
  past := nofun
  fresh _ := rfl
  early := nofun
  level := nofun
  bound := by
    have hburst := lim.one_le_burst
    have hrun := mul_nonneg lim.rps_pos.le (sub_nonneg.2 hst)
    simp only [St.admitted, St.start, filter_nil, length_nil, Nat.cast_zero]
    linarith

theorem window_run (hmono : reqs.Pairwise fun a b => a.now ≤ b.now) (hst : s ≤ t) (lim : Limits)
    (key : K) : ∃ clock, Window lim (run lim reqs) key s t clock := by
  cases reqs with
  | nil => exact ⟨0, .start hst⟩
  | cons r reqs =>
    obtain ⟨hr, hrest⟩ := pairwise_cons.1 hmono
    have h0 : Window lim (.start : St K) key s t r.now := .start hst
    exact (h0.meter le_rfl).foldl hrest hr

/-! ### Every run -/

theorem admitted_after_retry {wait : ℚ} {mid : List (Request K)}
    (hdenied : (check (some lim) r.key r.now st.store).2 = .error wait)
    (hmid : ∀ q ∈ mid, q.key ≠ r.key) (ht : r.now + wait ≤ t) :
    (check (some lim) r.key t (mid.foldl (St.meter lim) (st.meter lim r)).store).2 = .ok () := by
  have hlow : ¬ 1 ≤ st.level lim r := fun h1 => by rw [check_eq, if_pos h1] at hdenied; cases hdenied
  rw [check_eq, if_neg hlow, Except.error.injEq] at hdenied
  have hwait : (1 - st.level lim r) / lim.rps ≤ t - r.now :=
    (le_max_left _ _).trans (hdenied.trans_le (le_sub_iff_add_le'.2 ht))
  have hnow : r.now ≤ t := sub_nonneg.1 ((div_nonneg (sub_nonneg.2 (not_le.1 hlow).le) lim.rps_pos.le).trans hwait)
  have hfill : 1 ≤ st.level lim r + (t - r.now) * lim.rps := by
    have := (div_le_iff₀ lim.rps_pos).1 hwait
    linarith
  have hstore : (mid.foldl (St.meter lim) (st.meter lim r)).store r.key = some ⟨st.level lim r, r.now⟩ := by
    rw [store_foldl_of_ne hmid, store_meter_self, St.taken, if_neg hlow, Nat.cast_zero, sub_zero]
  have hfull : 1 ≤ St.level lim (mid.foldl (St.meter lim) (st.meter lim r)) ⟨r.key, t⟩ := by
    rw [level_eq_refilled (r := ⟨r.key, t⟩) hstore hnow]
    exact le_min hfill lim.one_le_burst
  exact (congrArg Prod.snd (check_eq lim _ ⟨r.key, t⟩)).trans (if_pos hfull)

/-- **Every window of every run is bounded.**  For every key: its level stays between empty and full, a window admits
no more than a full bucket and what runs into it, and who waits for `retry_after` is admitted. -/
theorem bounds_every_window (lim : Limits) (reqs : List (Request K))
    (hmono : reqs.Pairwise fun a b => a.now ≤ b.now) (key : K) :
    (∀ pre b, pre <+: reqs → (run lim pre).store key = some b → 0 ≤ b.tokens ∧ b.tokens ≤ lim.burst) ∧
    (∀ s t, s ≤ t → (run lim reqs).admitted key s t ≤ lim.burst + lim.rps * (t - s)) ∧
    ∀ pre now wait mid t, pre ++ ⟨key, now⟩ :: mid ++ [⟨key, t⟩] <+: reqs →
      (check (some lim) key now (run lim pre).store).2 = .error wait → (∀ q ∈ mid, q.key ≠ key) →
      now + wait ≤ t → (check (some lim) key t (run lim (pre ++ ⟨key, now⟩ :: mid)).store).2 = .ok () := by
  refine ⟨fun pre b hpre hb => ?_, fun s t hst => ?_, fun pre now wait mid t _ hdenied hmid ht => ?_⟩
  · obtain ⟨clock, hw⟩ := window_run (hmono.sublist hpre.sublist) (le_refl 0) lim key
    exact hw.leveled key b hb
  · obtain ⟨clock, hw⟩ := window_run hmono hst lim key
    exact hw.bound
  · rw [run, foldl_append, foldl_cons]
    exact admitted_after_retry (r := ⟨key, now⟩) hdenied hmid ht

/-- One token a second and a burst of one: of three requests the second has to wait for half a second. -/
theorem bounds_every_window_three :
    let lim : Limits := ⟨1, 1, one_pos, le_rfl⟩
    let reqs : List (Request String) := [⟨"docs", 0⟩, ⟨"docs", 1 / 2⟩, ⟨"docs", 1⟩]
    (run lim reqs).admitted "docs" 0 1 ≤ lim.burst + lim.rps * (1 - 0) ∧
      (check (some lim) "docs" 1 (run lim (reqs.take 2)).store).2 = .ok () := by
  intro lim reqs
  have h := bounds_every_window lim reqs (by simp [reqs]; norm_num) "docs"
  exact ⟨h.2.1 0 1 zero_le_one, h.2.2 [⟨"docs", 0⟩] (1 / 2) (1 / 2) [] 1 prefix_rfl
    (by decide +kernel) (by simp) (by norm_num)⟩

/-! ### One client -/

/-- `own` is, for a key, what `st` is. -/
def Alike (key : K) (own st : St K) : Prop :=
  own.store key = st.store key ∧ own.log = st.log.filter fun e => e.1.key = key

theorem Alike.meter {own : St K} (h : Alike key own st) (r : Request K) :
    Alike key (if r.key = key then own.meter lim r else own) (st.meter lim r) := by
  have hlog : (st.meter lim r).log = st.log ++ [(r, (check (some lim) r.key r.now st.store).2)] := rfl
  split
  next hkey =>
    have hlevel : own.level lim r = st.level lim r := by rw [St.level, St.level, hkey, h.1]
    have htaken : own.taken lim r = st.taken lim r := by rw [St.taken, St.taken, hlevel]
    refine ⟨?_, ?_⟩
    · rw [← hkey, store_meter_self, store_meter_self, hlevel, htaken]
    · rw [hlog, filter_append, filter_singleton, decide_eq_true hkey, ← h.2, check_eq, ← hlevel]
      simp only [St.meter, check_eq, cond_true]
  next hkey =>
    refine ⟨h.1.trans (store_meter_of_ne hkey).symm, ?_⟩
    rw [hlog, filter_append, filter_singleton, decide_eq_false hkey, h.2]
    simp

/-- **A client is metered by its own requests**: its bucket and its answers are those of a run of its requests alone,
whatever others ask in between. -/
theorem run_filter (lim : Limits) (reqs : List (Request K)) (key : K) :
    (run lim (reqs.filter (·.key = key))).store key = (run lim reqs).store key ∧
      (run lim (reqs.filter (·.key = key))).log = (run lim reqs).log.filter (·.1.key = key) := by
  have hfold : ∀ own st : St K, Alike key own st →
      Alike key ((reqs.filter (·.key = key)).foldl (St.meter lim) own) (reqs.foldl (St.meter lim) st) := by
    induction reqs with
    | nil => exact fun own st h => h
    | cons r reqs ih =>
      intro own st h
      have hnext : Alike key (if r.key = key then own.meter lim r else own) (st.meter lim r) := h.meter r
      rw [foldl_cons, filter_cons]
      split at hnext
      next hkey =>
        rw [if_pos (decide_eq_true hkey), foldl_cons]
        exact ih _ _ hnext
      next hkey =>
        rw [if_neg (by simpa using hkey)]
        exact ih _ _ hnext
  exact hfold .start .start ⟨rfl, rfl⟩

end RateLimit
