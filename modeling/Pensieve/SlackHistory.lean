/-
**The polling of Slack channels.**

A tick asks for the messages of a channel after the time of the newest message that it has seen, and reads one page of
the answer.  Times are compared as texts.
-/

import Pensieve.ManagedRegion
import Pensieve.Runs

namespace Slack

open List Function
open Discover (Text)

/-! ### Timestamps -/

/-- Whether a text has digits where the form has `true`, and dots elsewhere. -/
def fits : List Bool → Text → Bool
  | [], [] => true
  | digit :: f, c :: rest => (if digit then c.isDigit else c == '.') && fits f rest
  | _, _ => false

def isTs (ts : Text) : Bool := fits (replicate 10 true ++ false :: replicate 6 true) ts

def push (n : ℕ) (c : Char) : ℕ := if c = '.' then n else 10 * n + (c.toNat - 48)

def time (ts : Text) : ℕ := ts.foldl push 0

variable {ts ts' : Text} {f : List Bool} {digit : Bool} {n n' : ℕ} {c d : Char}

theorem fits_nil (h : fits [] ts) : ts = [] := by
  cases ts with
  | nil => rfl
  | cons c rest => cases h

theorem fits_cons (h : fits (digit :: f) ts) :
    ∃ c rest, ts = c :: rest ∧ (if digit then c.isDigit else c == '.') ∧ fits f rest := by
  cases ts with
  | nil => cases h
  | cons c rest =>
    rw [fits, Bool.and_eq_true] at h
    exact ⟨c, rest, rfl, h.1, h.2⟩

theorem push_digit (h : c.isDigit) : ∃ k ≤ 9, c.toNat = 48 + k ∧ ∀ n, push n c = 10 * n + k := by
  simp only [Char.isDigit, Bool.and_eq_true, decide_eq_true_eq, UInt32.le_iff_toNat_le] at h
  have hlow : 48 ≤ c.toNat := h.1
  have hhigh : c.toNat ≤ 57 := h.2
  have hdot : c ≠ '.' := by
    rintro rfl
    exact absurd hlow (by decide)
  refine ⟨c.toNat - 48, by omega, by omega, fun n => ?_⟩
  rw [push, if_neg hdot]

theorem foldl_push_lt (h : fits f ts) (h' : fits f ts') (hn : n < n') : ts.foldl push n < ts'.foldl push n' := by
  induction f generalizing ts ts' n n' with
  | nil =>
    obtain rfl := fits_nil h
    obtain rfl := fits_nil h'
    exact hn
  | cons digit f ih =>
    obtain ⟨c, rest, rfl, hc, hrest⟩ := fits_cons h
    obtain ⟨d, rest', rfl, hd, hrest'⟩ := fits_cons h'
    rw [foldl_cons, foldl_cons]
    refine ih hrest hrest' ?_
    cases digit with
    | false =>
      obtain rfl : c = '.' := by simpa using hc
      obtain rfl : d = '.' := by simpa using hd
      exact hn
    | true =>
      obtain ⟨k, hk, -, hpush⟩ := push_digit hc
      obtain ⟨k', hk', -, hpush'⟩ := push_digit hd
      rw [hpush, hpush']
      omega

theorem foldl_push_lt_iff (h : fits f ts) (h' : fits f ts') : ts.foldl push n < ts'.foldl push n ↔ ts < ts' := by
  induction f generalizing ts ts' n with
  | nil =>
    obtain rfl := fits_nil h
    obtain rfl := fits_nil h'
    simp
  | cons digit f ih =>
    obtain ⟨c, rest, rfl, hc, hrest⟩ := fits_cons h
    obtain ⟨d, rest', rfl, hd, hrest'⟩ := fits_cons h'
    rw [cons_lt_cons_iff, foldl_cons, foldl_cons]
    by_cases heq : c = d
    · subst heq
      simp [ih hrest hrest']
    rw [or_iff_left fun hcd => heq hcd.1]
    cases digit with
    | false =>
      obtain rfl : c = '.' := by simpa using hc
      obtain rfl : d = '.' := by simpa using hd
      exact absurd rfl heq
    | true =>
      obtain ⟨k, hk, htoNat, hpush⟩ := push_digit hc
      obtain ⟨k', hk', htoNat', hpush'⟩ := push_digit hd
      have hlt : c < d ↔ k < k' := by
        rw [Char.lt_def, UInt32.lt_iff_toNat_lt]
        change c.toNat < d.toNat ↔ _
        omega
      have hne : k ≠ k' := fun hk => heq (Char.toNat_inj.1 (by omega))
      rw [hpush, hpush', hlt]
      constructor
      · intro hle
        by_contra hnot
        exact (foldl_push_lt hrest' hrest (by omega : 10 * n + k' < 10 * n + k)).asymm hle
      · intro hk
        exact foldl_push_lt hrest hrest' (by omega)

theorem time_lt_iff (h : isTs ts) (h' : isTs ts') : time ts < time ts' ↔ ts < ts' := foldl_push_lt_iff h h'

/-! ### A tick -/

abbrev Channel := String

structure Message where
  ts : Text
  text : String
  deriving DecidableEq

/-- The messages of each channel, the stored cursors, and the messages that ticks have returned. -/
structure World where
  posted : Channel → List Message
  cursor : Channel → Text
  returned : Channel → List Message

def After (oldest : Text) (m : Message) : Prop := oldest = [] ∨ time oldest < time m.ts

instance (oldest : Text) (m : Message) : Decidable (After oldest m) := inferInstanceAs (Decidable (_ ∨ _))

def since (posted : List Message) (oldest : Text) : List Message := (posted.filter (After oldest ·)).reverse

/-- The first page of `conversations.history`. -/
def history (posted : List Message) (oldest : Text) : List Message := (since posted oldest).take 100

def newest (oldest : Text) (messages : List Message) : Text :=
  messages.foldl (fun newest m => if newest < m.ts then m.ts else newest) oldest

/-- The loop's body in `run_once`. -/
def poll (w : World) (chan : Channel) : World :=
  let messages := history (w.posted chan) (w.cursor chan)
  { w with
    cursor := update w.cursor chan (newest (w.cursor chan) messages)
    returned := update w.returned chan (w.returned chan ++ messages) }

def runOnce (maxChannels : ℕ) (w : World) (channelIds : List Channel) : World := (channelIds.take maxChannels).foldl poll w

inductive Action
  | post (chan : Channel) (m : Message)
  | tick (channelIds : List Channel)
  | failed

def step (maxChannels : ℕ) (w : World) : Action → Option World
  | .post chan m =>
    if isTs m.ts ∧ ∀ m' ∈ w.posted chan, time m'.ts < time m.ts then
      some { w with posted := update w.posted chan (w.posted chan ++ [m]) }
    else none
  | .tick channelIds => some (runOnce maxChannels w channelIds)
  | .failed => some w

/-! ### No message is skipped -/

def Kept (first : Channel → Text) (w : World) (chan : Channel) : Prop :=
  ∀ m ∈ w.posted chan, After (first chan) m → After (w.cursor chan) m ∨ m ∈ w.returned chan

def Caught (first : Channel → Text) (w : World) (chan : Channel) : Prop :=
  ∀ m ∈ w.posted chan, After (first chan) m → m ∈ w.returned chan

def Behind (first : Channel → Text) (w : World) (chan : Channel) : Prop :=
  w.cursor chan = first chan ∨ ∃ m ∈ w.posted chan, m ∈ w.returned chan ∧ w.cursor chan = m.ts

def OnePage (w : World) (channelIds : List Channel) : Prop :=
  ∀ chan ∈ channelIds, (since (w.posted chan) (w.cursor chan)).length ≤ 100

def Heeds (maxChannels : ℕ) (w : World) : Action → Prop
  | .tick channelIds => OnePage w (channelIds.take maxChannels)
  | _ => True

structure Formed (w : World) : Prop where
  posted : ∀ chan, ∀ m ∈ w.posted chan, isTs m.ts
  cursor : ∀ chan, w.cursor chan = [] ∨ isTs (w.cursor chan)

structure Inv (first : Channel → Text) (w : World) : Prop where
  formed : Formed w
  kept : ∀ chan, Kept first w chan
  behind : ∀ chan, Behind first w chan

variable {first : Channel → Text} {maxChannels : ℕ} {w w' s : World} {chan chan' : Channel} {m : Message}
  {channelIds : List Channel} {a : Action} {oldest : Text} {messages posted : List Message}

theorem mem_since : m ∈ since posted oldest ↔ m ∈ posted ∧ After oldest m := by simp [since]

theorem newest_cons : newest oldest (m :: messages) = newest (if oldest < m.ts then m.ts else oldest) messages := rfl

theorem newest_cases (oldest : Text) (messages : List Message) :
    newest oldest messages = oldest ∨ ∃ m ∈ messages, newest oldest messages = m.ts := by
  induction messages generalizing oldest with
  | nil => exact .inl rfl
  | cons m messages ih =>
    rw [newest_cons]
    rcases ih (if oldest < m.ts then m.ts else oldest) with h | ⟨m', hm', h⟩
    · split at h
      · exact .inr ⟨m, mem_cons_self, by rw [if_pos ‹_›, h]⟩
      · exact .inl (by rw [if_neg ‹_›, h])
    · exact .inr ⟨m', mem_cons_of_mem _ hm', h⟩

theorem le_newest (oldest : Text) (messages : List Message) :
    ¬ newest oldest messages < oldest ∧ ∀ m ∈ messages, ¬ newest oldest messages < m.ts := by
  induction messages generalizing oldest with
  | nil => exact ⟨lt_irrefl _, nofun⟩
  | cons m messages ih =>
    rw [newest_cons]
    obtain ⟨hold, hall⟩ := ih (if oldest < m.ts then m.ts else oldest)
    rw [forall_mem_cons]
    by_cases hlt : oldest < m.ts
    · rw [if_pos hlt] at hold hall ⊢
      exact ⟨fun h => hold (h.trans hlt), hold, hall⟩
    · rw [if_neg hlt] at hold hall ⊢
      exact ⟨hold, fun h => hold (h.trans_le (not_lt.1 hlt)), hall⟩

theorem After.of_newest (hold : oldest = [] ∨ isTs oldest) (hall : ∀ m ∈ messages, isTs m.ts)
    (h : After (newest oldest messages) m) : After oldest m := by
  rcases hold with rfl | hts
  · exact .inl rfl
  rcases newest_cases oldest messages with heq | ⟨m', hm', heq⟩
  · rwa [heq] at h
  have hle := (le_newest oldest messages).1
  rw [heq] at h hle
  rcases h with hnil | hlt
  · have hts' := hall m' hm'
    rw [hnil] at hts'
    exact absurd hts' (by decide)
  · exact .inr ((not_lt.1 (mt (time_lt_iff (hall m' hm') hts).1 hle)).trans_lt hlt)

theorem poll_posted : (poll w chan).posted = w.posted := rfl

theorem mem_of_mem_history (h : m ∈ history posted oldest) : m ∈ posted ∧ After oldest m := mem_since.1 (mem_of_mem_take h)

theorem poll_cursor_of_ne (h : chan' ≠ chan) : (poll w chan).cursor chan' = w.cursor chan' := update_of_ne h ..

theorem poll_cursor_self : (poll w chan).cursor chan = newest (w.cursor chan) (history (w.posted chan) (w.cursor chan)) :=
  update_self ..

theorem poll_returned_self :
    (poll w chan).returned chan = w.returned chan ++ history (w.posted chan) (w.cursor chan) := update_self ..

theorem returned_poll (h : m ∈ w.returned chan') : m ∈ (poll w chan).returned chan' := by
  by_cases heq : chan' = chan
  · subst heq
    rw [poll_returned_self]
    exact mem_append_left _ h
  · exact (congrArg (m ∈ ·) (update_of_ne heq ..)).mpr h

theorem Formed.polled (h : Formed w) : Formed (poll w chan) := by
  refine ⟨h.posted, fun chan' => ?_⟩
  by_cases heq : chan' = chan
  · subst heq
    rw [poll_cursor_self]
    rcases newest_cases (w.cursor chan') (history (w.posted chan') (w.cursor chan')) with hcursor | ⟨m, hm, hcursor⟩
    · rw [hcursor]
      exact h.cursor chan'
    · rw [hcursor]
      exact .inr (h.posted chan' m (mem_of_mem_history hm).1)
  · rw [poll_cursor_of_ne heq]
    exact h.cursor chan'

theorem OnePage.polled (hf : Formed w) (h : OnePage w channelIds) : OnePage (poll w chan) channelIds := by
  intro chan' hmem
  by_cases heq : chan' = chan
  · subst heq
    refine le_trans (Sublist.length_le ?_) (h chan' hmem)
    rw [since, since, reverse_sublist, poll_posted, poll_cursor_self]
    have hback : ∀ m, After (newest (w.cursor chan') (history (w.posted chan') (w.cursor chan'))) m →
        After (w.cursor chan') m := fun m => After.of_newest (hf.cursor chan')
      fun m' hm' => hf.posted chan' m' (mem_of_mem_history hm').1
    have hsub : ∀ next, (∀ m, After next m → After (w.cursor chan') m) → (w.posted chan').filter (After next ·) =
        ((w.posted chan').filter (After (w.cursor chan') ·)).filter (After next ·) := by
      intro next hnext
      rw [filter_filter]
      exact filter_congr fun m _ => by simpa using hnext m
    rw [hsub _ hback]
    exact filter_sublist
  · rw [poll_posted, poll_cursor_of_ne heq]
    exact h chan' hmem

theorem Inv.caught_poll (h : Inv first w) (hpage : (since (w.posted chan) (w.cursor chan)).length ≤ 100) :
    Caught first (poll w chan) chan := by
  intro m hm hfirst
  rcases h.kept chan m hm hfirst with hafter | hret
  · rw [poll_returned_self, history, take_of_length_le hpage]
    exact mem_append_right _ (mem_since.2 ⟨hm, hafter⟩)
  · exact returned_poll hret

theorem Inv.polled (h : Inv first w) (hpage : (since (w.posted chan) (w.cursor chan)).length ≤ 100) :
    Inv first (poll w chan) := by
  refine ⟨h.formed.polled, fun chan' => ?_, fun chan' => ?_⟩
  all_goals by_cases heq : chan' = chan
  · subst heq
    exact fun m hm hfirst => .inr (h.caught_poll hpage m hm hfirst)
  · intro m hm hfirst
    rw [poll_cursor_of_ne heq]
    exact (h.kept chan' m hm hfirst).imp_right returned_poll
  · subst heq
    rcases newest_cases (w.cursor chan') (history (w.posted chan') (w.cursor chan')) with hcursor | ⟨m, hm, hcursor⟩
    · rw [Behind, poll_cursor_self, hcursor]
      exact (h.behind chan').imp_right fun ⟨m, hm, hret, hts⟩ => ⟨m, hm, returned_poll hret, hts⟩
    · refine .inr ⟨m, (mem_of_mem_history hm).1, ?_, poll_cursor_self.trans hcursor⟩
      rw [poll_returned_self]
      exact mem_append_right _ hm
  · rw [Behind, poll_cursor_of_ne heq]
    exact (h.behind chan').imp_right fun ⟨m, hm, hret, hts⟩ => ⟨m, hm, returned_poll hret, hts⟩

theorem Caught.polled (h : Caught first w chan') : Caught first (poll w chan) chan' :=
  fun m hm hfirst => returned_poll (h m hm hfirst)

theorem Inv.foldl (h : Inv first w) (hpage : OnePage w channelIds) :
    Inv first (channelIds.foldl poll w) ∧ ∀ chan, chan ∈ channelIds ∨ Caught first w chan →
      Caught first (channelIds.foldl poll w) chan := by
  induction channelIds generalizing w with
  | nil => exact ⟨h, fun chan hc => hc.resolve_left (not_mem_nil)⟩
  | cons chan ids ih =>
    obtain ⟨hchan, -⟩ := forall_mem_cons.1 hpage
    have hrest : OnePage (poll w chan) ids := fun c hc => hpage.polled h.formed c (mem_cons_of_mem _ hc)
    obtain ⟨hinv, hcaught⟩ := ih (h.polled hchan) hrest
    refine ⟨hinv, fun c hc => hcaught c ?_⟩
    rcases hc with hc | hc
    · rcases mem_cons.1 hc with rfl | hc
      · exact .inr (h.caught_poll hchan)
      · exact .inl hc
    · exact .inr hc.polled

theorem Inv.post (h : Inv first w) (hs : step maxChannels w (.post chan m) = some w') : Inv first w' := by
  obtain ⟨⟨hts, hlast⟩, heq⟩ := Option.ite_none_right_eq_some.1 hs
  cases heq
  have hpost : ∀ {c x}, x ∈ update w.posted chan (w.posted chan ++ [m]) c → x ∈ w.posted c ∨ c = chan ∧ x = m := by
    intro c x hx
    by_cases hc : c = chan
    · subst hc
      rw [update_self, mem_append, mem_singleton] at hx
      exact hx.imp_right fun hx => ⟨rfl, hx⟩
    · exact .inl (by rwa [update_of_ne hc] at hx)
  have hkeep : ∀ {c x}, x ∈ w.posted c → x ∈ update w.posted chan (w.posted chan ++ [m]) c := by
    intro c x hx
    by_cases hc : c = chan
    · subst hc
      rw [update_self]
      exact mem_append_left _ hx
    · rwa [update_of_ne hc]
  refine ⟨⟨fun c x hx => ?_, h.formed.cursor⟩, fun c x hx hfirst => ?_,
    fun c => (h.behind c).imp_right fun ⟨x, hx, hret, hcursor⟩ => ⟨x, hkeep hx, hret, hcursor⟩⟩
  · rcases hpost hx with hx | ⟨-, rfl⟩
    · exact h.formed.posted c x hx
    · exact hts
  · rcases hpost hx with hx | ⟨rfl, rfl⟩
    · exact h.kept c x hx hfirst
    · -- the new message is past all messages, and the cursor is one of them or the first
      left
      rcases h.behind c with heq | ⟨y, hy, -, heq⟩
      · rwa [heq]
      · rw [heq]
        exact .inr (hlast y hy)

theorem Inv.step (h : Inv first w) (ha : Heeds maxChannels w a) (hs : step maxChannels w a = some w') :
    Inv first w' := by
  cases a with
  | post chan m => exact h.post hs
  | tick channelIds =>
    cases hs
    exact (h.foldl ha).1
  | failed =>
    cases hs
    exact h

/-- **No message is skipped** by ticks that poll the channel when one page holds what is new. -/
theorem returned_of_heeds (hs : Formed s) (hr : Runs.Reach (step maxChannels) (Heeds maxChannels) s w)
    (ha : Heeds maxChannels w (.tick channelIds)) (ht : step maxChannels w (.tick channelIds) = some w') :
    (∀ chan ∈ channelIds.take maxChannels, Caught s.cursor w' chan) ∧ ∀ chan, Behind s.cursor w' chan := by
  have hstart : Inv s.cursor s := ⟨hs, fun _ _ _ hfirst => .inl hfirst, fun _ => .inl rfl⟩
  have hinv : Inv s.cursor w := hr.inv hstart fun _ _ _ hi ha hs => hi.step ha hs
  cases ht
  obtain ⟨hnext, hcaught⟩ := hinv.foldl ha
  exact ⟨fun chan hc => hcaught chan (.inl hc), hnext.behind⟩

def stamped (n : ℕ) : Message := ⟨"1700000000.000".toList ++ (Nat.toDigits 10 (100 + n)), ""⟩

def started (posted : List Message) : World := ⟨fun _ => posted, fun _ => [], fun _ => []⟩

theorem returned_of_heeds_two :
    ∃ w, step 1 (started [stamped 1, stamped 2]) (.tick ["C1"]) = some w ∧ stamped 1 ∈ w.returned "C1" := by
  have hformed : Formed (started [stamped 1, stamped 2]) :=
    ⟨fun _ => show ∀ m ∈ [stamped 1, stamped 2], isTs m.ts by decide +kernel, fun _ => .inl rfl⟩
  have hpage : Heeds 1 (started [stamped 1, stamped 2]) (.tick ["C1"]) := 
    fun _ _ => show (since [stamped 1, stamped 2] []).length ≤ 100 by decide +kernel
  refine ⟨_, rfl, ?_⟩
  have h := returned_of_heeds hformed .init hpage rfl
  exact h.1 "C1" mem_cons_self (stamped 1) mem_cons_self (.inl rfl)

/-- **Of one message more than a page holds, the oldest is not returned**, and the cursor is past it. -/
theorem oldest_message_skipped : ∃ w, step 1 (started ((range 101).map stamped)) (.tick ["C1"]) = some w ∧
    stamped 0 ∈ w.posted "C1" ∧ stamped 0 ∉ w.returned "C1" ∧ ¬ After (w.cursor "C1") (stamped 0) :=
  ⟨_, rfl, by decide +kernel, by decide +kernel, by decide +kernel⟩

end Slack
