/-
**One memory for a key, and no edit undone.**

A call that changes a memory reads the store and writes a row later.  What it read may be out of
date by then: a save that found no memory with its key makes a second one if another is about to be
stored, and an edit writes back the column that another call has set meanwhile.
-/

import Pensieve.MemoryCalls

namespace MemoryCalls

open List
open Discover (Text)

variable {B C : Type} {queue : Bool} {s s' : St B C} {a : Action B C}

/-! ### The condition -/

def Stage.target : Stage B → Option Id
  | .resolved _ _ target => target
  | .fetched _ row => some row.id
  | .built _ _ row => some row.id
  | _ => none

def Stage.edits : Stage B → Option Id
  | .fetched _ row => some row.id
  | .built (.update _) _ row => some row.id
  | _ => none

def Stage.Creates (realm key : Text) : Stage B → Prop
  | .resolved cm _ none => cm.realm = realm ∧ cm.topicKey = some key
  | .built _ _ row => Keyed realm key row
  | _ => False

variable {stage : Stage B}

theorem target_of_edits {id : Id} (h : stage.edits = some id) : stage.target = some id := by
  cases stage with
  | fetched e row => exact h
  | built origin path row =>
    cases origin with
    | save cm => cases h
    | update e => exact h
  | idle | waiting next targets | reading next | resolved cm path target => cases h

/-- **The condition on the steps.**  A lookup that finds a memory is made while no other call edits it, and one
that finds none while no row with the key is under way.  An edit reads its memory while no other call is about to
write to it and none of its rows is pending.  Lookups do not fail; a job that is refused does not stay in the
store; no caller is told that a row was not appended that was. -/
def Alone (s : St B C) : Action B C → Prop
  | .find c (some id) => ∀ c', c' ≠ c → (s.calls c').edits ≠ some id
  | .find c none => ∀ cm path key, s.calls c = .reading (.lookup cm path) → cm.topicKey = some key →
      (∀ r ∈ s.pending, ¬ Keyed cm.realm key r) ∧ ∀ c', c' ≠ c → ¬ (s.calls c').Creates cm.realm key
  | .findFails _ => False
  | .get c row => (∀ r ∈ s.pending, r.id ≠ row.id) ∧ ∀ c', c' ≠ c → (s.calls c').target ≠ some row.id
  | .send _ (.refused kept) => kept = false
  | .append _ told => told = true
  | _ => True

/-! ### Rows -/

def St.Has (s : St B C) (r : Row B) : Prop := r ∈ s.rows ∨ ∃ c origin path, s.calls c = .built origin path r

variable {r : Row B}

theorem mem_pending : r ∈ s.pending ↔ r ∈ s.channel.map Job.row ∨ r ∈ s.parked := mem_append

theorem mem_rows : r ∈ s.rows ↔ r ∈ s.table ∨ r ∈ s.channel.map Job.row ∨ r ∈ s.parked := by
  rw [St.rows, mem_append, mem_pending]

theorem exists_latest {table : List (Row B)} (h : r ∈ table) : ∃ r', Latest table r' ∧ r'.id = r.id := by
  have hne : ((table.filter fun x => x.id = r.id : List (Row B)) : Multiset (Row B)) ≠ 0 := by
    intro hnil
    have hmem : r ∈ table.filter fun x => x.id = r.id := mem_filter.2 ⟨h, decide_eq_true rfl⟩
    rw [(Multiset.coe_eq_zero _).1 hnil] at hmem
    cases hmem
  obtain ⟨r', hr', hmax⟩ := Multiset.exists_max_image Row.updatedAt hne
  obtain ⟨hr', hid⟩ := mem_filter.1 (Multiset.mem_coe.1 hr')
  have hid := of_decide_eq_true hid
  refine ⟨r', ⟨hr', fun x hx hxid => hmax x ?_⟩, hid⟩
  exact Multiset.mem_coe.2 (mem_filter.2 ⟨hx, decide_eq_true (hxid.trans hid)⟩)

theorem channel_rows (n : ℕ) (l : List (Job B)) (r : Row B) :
    r ∈ l.map Job.row ↔ r ∈ (l.take n).map Job.row ∨ r ∈ (l.drop n).map Job.row := by
  rw [← mem_append, ← map_append, take_append_drop]

variable {row : Row B}

theorem parked_rows {l : List (Row B)} {i : ℕ} (h : l[i]? = some row) (r : Row B) :
    r ∈ l ↔ r = row ∨ r ∈ l.eraseIdx i := by
  obtain ⟨hi, rfl⟩ := List.getElem?_eq_some_iff.1 h
  rw [← mem_cons]
  exact ((getElem_cons_eraseIdx_perm hi).mem_iff).symm

theorem rows_flush (n : ℕ) (landed kept : Bool) (marks : Marks) (r : Row B) : r ∈ St.rows { s with
        channel := s.channel.drop n
        table := s.table ++ if landed then (s.channel.take n).map Job.row else []
        parked := s.parked ++ if landed && !kept then [] else (s.channel.take n).map Job.row
        attempted := marks } ↔ r ∈ s.rows := by
  rw [mem_rows, mem_rows, channel_rows n s.channel]
  cases landed <;> cases kept <;> simp only [Bool.false_eq_true, Bool.false_and, Bool.true_and, Bool.not_true,
    Bool.not_false, if_true, if_false, append_nil, mem_append] <;> tauto

theorem rows_replay {i : ℕ} (hrow : s.parked[i]? = some row) (landed kept : Bool) (n : ℕ)
    (marks : Marks) (r : Row B) :
    r ∈ St.rows { s with
        seq := n
        parked := s.parked.eraseIdx i ++ if landed && !kept then [] else [row]
        table := s.table ++ if landed then [row] else []
        attempted := marks } ↔ r ∈ s.rows := by
  rw [mem_rows, mem_rows, parked_rows hrow]
  cases landed <;> cases kept <;> simp only [Bool.false_eq_true, Bool.false_and, Bool.true_and, Bool.not_true,
    Bool.not_false, if_true, if_false, append_nil, mem_append, mem_singleton] <;> tauto

/-! ### Keys -/

/-- **Ids, times and keys of rows**, and what saves know that have looked up a key. -/
structure Keys (s : St B C) : Prop where
  old : ∀ r, s.Has r → r.updatedAt < s.clock ∧ r.id < s.nextId
  stamp : ∀ r r', s.Has r → s.Has r' → r.updatedAt = r'.updatedAt → r = r'
  key : ∀ r r', s.Has r → s.Has r' → r.id = r'.id → r.realm = r'.realm ∧ r.topicKey = r'.topicKey
  unique : ∀ r r' realm key, s.Has r → s.Has r' → Keyed realm key r → Keyed realm key r' → r.id = r'.id
  target : ∀ c cm path id, s.calls c = .resolved cm path (some id) →
    ∃ r ∈ s.rows, r.id = id ∧ r.realm = cm.realm ∧ r.topicKey = cm.topicKey
  create : ∀ c cm path key, s.calls c = .resolved cm path none → cm.topicKey = some key →
    (∀ r, s.Has r → ¬ Keyed cm.realm key r) ∧ ∀ c', c' ≠ c → ¬ (s.calls c').Creates cm.realm key

def Stage.Quiet (s : St B C) : Stage B → Prop
  | .resolved cm _ target => target = none ∧ cm.topicKey = none
  | .built _ _ row => s.Has row
  | _ => True

variable {path : Path} {cm : CreateMemory B}

theorem creates_of_resolved {realm key : Text}
    (h : (Stage.resolved cm path none : Stage B).Creates realm key) : cm.topicKey = some key := h.2

theorem Keys.quiet (h : Keys s) (hrows : ∀ r ∈ s.rows, r ∈ s'.rows) (hrows' : ∀ r ∈ s'.rows, s.Has r)
    (hclock : s.clock ≤ s'.clock) (hnext : s.nextId ≤ s'.nextId)
    (hcalls : ∀ c, s'.calls c = s.calls c ∨ (s'.calls c).Quiet s) : Keys s' := by
  have hhas : ∀ r, s'.Has r → s.Has r := by
    rintro r (hr | ⟨c, origin, path, hc⟩)
    · exact hrows' r hr
    · rcases hcalls c with hsame | hquiet
      · exact .inr ⟨c, origin, path, hsame ▸ hc⟩
      · rw [hc] at hquiet
        exact hquiet
  refine ⟨fun r hr => ?_, fun r r' hr hr' => h.stamp r r' (hhas r hr) (hhas r' hr'),
    fun r r' hr hr' => h.key r r' (hhas r hr) (hhas r' hr'),
    fun r r' realm key hr hr' => h.unique r r' realm key (hhas r hr) (hhas r' hr'),
    fun c cm path id hc => ?_, fun c cm path key hc hkey => ?_⟩
  · obtain ⟨hold, hid⟩ := h.old r (hhas r hr)
    exact ⟨hold.trans_le hclock, hid.trans_le hnext⟩
  · rcases hcalls c with hsame | hquiet
    · obtain ⟨r, hr, hid⟩ := h.target c cm path id (hsame ▸ hc)
      exact ⟨r, hrows r hr, hid⟩
    · rw [hc] at hquiet
      cases hquiet.1
  · rcases hcalls c with hsame | hquiet
    · obtain ⟨hnone, hothers⟩ := h.create c cm path key (hsame ▸ hc) hkey
      refine ⟨fun r hr => hnone r (hhas r hr), fun c' hne hcreates => ?_⟩
      rcases hcalls c' with hsame' | hquiet'
      · exact hothers c' hne (hsame' ▸ hcreates)
      · -- a call that knows no more than before creates nothing with the key
        cases hstage : s'.calls c' with
        | resolved cm' path' target =>
          rw [hstage] at hquiet' hcreates
          obtain ⟨rfl, hnokey⟩ := hquiet'
          rw [creates_of_resolved hcreates] at hnokey
          cases hnokey
        | built origin path' row =>
          rw [hstage] at hquiet' hcreates
          exact hnone row hquiet' hcreates
        | _ =>
          rw [hstage] at hcreates
          exact hcreates
    · rw [hc] at hquiet
      rw [hquiet.2] at hkey
      cases hkey

variable {c : C} {origin : Origin B}

section Steps

variable [DecidableEq C]

omit [DecidableEq C] in
theorem target_le (h : Keys s) {id : Id}
    (hc : s.calls c = .resolved cm path (some id)) : id < s.nextId := by
  obtain ⟨r, hr, rfl, -⟩ := h.target c cm path id hc
  exact (h.old r (.inl hr)).2

theorem calls_setCall (s : St B C) (c c' : C) (stage : Stage B) :
    (s.setCall c stage).calls c' = if c' = c then stage else s.calls c' := Function.update_apply ..

theorem calls_or {Q : Stage B → Prop} {c : C} {stage : Stage B} (hstage : Q stage) (c' : C) :
    (s.setCall c stage).calls c' = s.calls c' ∨ Q ((s.setCall c stage).calls c') := by
  rw [calls_setCall]
  split
  · exact .inr hstage
  · exact .inl rfl

theorem Keys.find (h : Keys s) {c : C} {cm : CreateMemory B} {path : Path} {key : Text} {found : Option Id}
    (hstage : s.calls c = .reading (.lookup cm path)) (hkey : cm.topicKey = some key)
    (hfinds : Finds s.table cm.realm key found) (hok : Alone s (.find c found)) :
    Keys (s.setCall c (.resolved cm path found)) := by
  have hhas : ∀ r, (s.setCall c (.resolved cm path found)).Has r → s.Has r := by
    rintro r (hr | ⟨c', origin, path', hc'⟩)
    · exact .inl hr
    · rw [calls_setCall] at hc'
      split at hc'
      · cases hc'
      · exact .inr ⟨c', origin, path', hc'⟩
  refine ⟨fun r hr => h.old r (hhas r hr), fun r r' hr hr' => h.stamp r r' (hhas r hr) (hhas r' hr'),
    fun r r' hr hr' => h.key r r' (hhas r hr) (hhas r' hr'),
    fun r r' realm k hr hr' => h.unique r r' realm k (hhas r hr) (hhas r' hr'),
    fun c' cm' path' id hc' => ?_, fun c' cm' path' key' hc' hkey' => ?_⟩
  · rw [calls_setCall] at hc'
    split at hc'
    · cases hc'
      obtain ⟨r, hr, -, hkeyed, hid⟩ := hfinds
      exact ⟨r, mem_append_left _ hr, hid, hkeyed.1, hkeyed.2.trans hkey.symm⟩
    · exact h.target c' cm' path' id hc'
  · rw [calls_setCall] at hc'
    split at hc'
    · -- this lookup has found nothing
      rename_i hcc
      cases hc'
      rw [hkey] at hkey'
      cases hkey'
      obtain ⟨hpending, hothers⟩ := hok cm path key hstage hkey
      have hnone : ∀ r, s.Has r → ¬ Keyed cm.realm key r := by
        rintro r (hr | ⟨c'', origin, path'', hc''⟩) hkeyed
        · rcases mem_append.1 hr with hr | hr
          · obtain ⟨r', hlatest, hid⟩ := exists_latest hr
            obtain ⟨hrealm, htopic⟩ := h.key r' r (.inl (mem_append_left _ hlatest.1)) (.inl (mem_append_left _ hr)) hid
            exact hfinds r' hlatest.1 hlatest ⟨hrealm.trans hkeyed.1, htopic.trans hkeyed.2⟩
          · exact hpending r hr hkeyed
        · have hne : c'' ≠ c := by
            rintro rfl
            rw [hstage] at hc''
            cases hc''
          refine hothers c'' hne ?_
          rw [hc'']
          exact hkeyed
      refine ⟨fun r hr => hnone r (hhas r hr), fun c'' hne hcreates => ?_⟩
      rw [calls_setCall, if_neg (hcc ▸ hne)] at hcreates
      exact hothers c'' (hcc ▸ hne) hcreates
    · -- another one that had found nothing
      rename_i hne
      obtain ⟨hnone, hothers⟩ := h.create c' cm' path' key' hc' hkey'
      refine ⟨fun r hr => hnone r (hhas r hr), fun c'' hne' hcreates => ?_⟩
      rw [calls_setCall] at hcreates
      split at hcreates
      · cases found with
        | some id =>
          exact hcreates
        | none =>
          obtain ⟨-, hothers'⟩ := hok cm path key hstage hkey
          refine hothers' c' hne ?_
          rw [hc']
          obtain ⟨hrealm, htopic⟩ := hcreates
          rw [hkey] at htopic
          cases htopic
          exact ⟨hrealm.symm, hkey'⟩
      · exact hothers c'' hne' hcreates

theorem Keys.built (h : Keys s) (hstamp : row.updatedAt = s.clock) (hid : row.id ≤ s.nextId)
    (hkey : ∀ r, s.Has r → r.id = row.id → r.realm = row.realm ∧ r.topicKey = row.topicKey)
    (hunique : ∀ r realm key, s.Has r → Keyed realm key r → Keyed realm key row → r.id = row.id)
    (hcreate : ∀ c' cm' path' key, c' ≠ c → s.calls c' = .resolved cm' path' none → cm'.topicKey = some key →
      ¬ Keyed cm'.realm key row) :
    Keys { s.setCall c (.built origin path row) with
      clock := s.clock + 1
      nextId := s.nextId + 1 } := by
  have hhas : ∀ r, St.Has { s.setCall c (.built origin path row) with
      clock := s.clock + 1
      nextId := s.nextId + 1 } r → s.Has r ∨ r = row := by
    rintro r (hr | ⟨c', origin', path', hc'⟩)
    · exact .inl (.inl hr)
    · dsimp only at hc'
      rw [calls_setCall] at hc'
      split at hc'
      · cases hc'
        exact .inr rfl
      · exact .inl (.inr ⟨c', origin', path', hc'⟩)
  constructor
  · intro r hr
    rcases hhas r hr with hbefore | rfl
    · obtain ⟨hold, hlt⟩ := h.old r hbefore
      exact ⟨Nat.lt_succ_of_lt hold, Nat.lt_succ_of_lt hlt⟩
    · exact ⟨Nat.lt_succ_of_le hstamp.le, Nat.lt_succ_of_le hid⟩
  · intro r r' hr hr' heq
    rcases hhas r hr with hbefore | rfl
    · rcases hhas r' hr' with hbefore' | rfl
      · exact h.stamp r r' hbefore hbefore' heq
      · have hold := (h.old r hbefore).1
        omega
    · rcases hhas r' hr' with hbefore' | rfl
      · have hold := (h.old r' hbefore').1
        omega
      · rfl
  · intro r r' hr hr' heq
    rcases hhas r hr with hbefore | rfl
    · rcases hhas r' hr' with hbefore' | rfl
      · exact h.key r r' hbefore hbefore' heq
      · exact hkey r hbefore heq
    · rcases hhas r' hr' with hbefore' | rfl
      · obtain ⟨hrealm, htopic⟩ := hkey r' hbefore' heq.symm
        exact ⟨hrealm.symm, htopic.symm⟩
      · exact ⟨rfl, rfl⟩
  · intro r r' realm key hr hr' hk hk'
    rcases hhas r hr with hbefore | rfl
    · rcases hhas r' hr' with hbefore' | rfl
      · exact h.unique r r' realm key hbefore hbefore' hk hk'
      · exact hunique r realm key hbefore hk hk'
    · rcases hhas r' hr' with hbefore' | rfl
      · exact (hunique r' realm key hbefore' hk' hk).symm
      · rfl
  · intro c' cm' path' id hc'
    dsimp only at hc'
    rw [calls_setCall] at hc'
    split at hc'
    · cases hc'
    · exact h.target c' cm' path' id hc'
  · intro c' cm' path' key hc' hkey'
    dsimp only at hc'
    rw [calls_setCall] at hc'
    split at hc'
    · cases hc'
    · rename_i hne
      obtain ⟨hnone, hothers⟩ := h.create c' cm' path' key hc' hkey'
      refine ⟨fun r hr => ?_, fun c'' hne' hcreates => ?_⟩
      · rcases hhas r hr with hbefore | rfl
        · exact hnone r hbefore
        · exact hcreate c' cm' path' key hne hc' hkey'
      · dsimp only at hcreates
        rw [calls_setCall] at hcreates
        split at hcreates
        · exact hcreate c' cm' path' key hne hc' hkey' hcreates
        · exact hothers c'' hne' hcreates

theorem Keys.stampSave (h : Keys s) {target : Option Id}
    (hstage : s.calls c = .resolved cm path target) :
    Keys { s.setCall c (.built (.save cm) path (nodeRow (target.getD s.nextId) cm s.clock)) with
      clock := s.clock + 1
      nextId := s.nextId + 1 } := by
  cases target with
  | none =>
    refine h.built rfl le_rfl (fun r hr hid => ?_) (fun r realm key hr hk hk' => ?_)
      fun c' cm' path' key hne hc' hkey' hkeyed => ?_
    · have hlt := (h.old r hr).2
      rw [hid] at hlt
      exact absurd hlt (lt_irrefl _)
    · obtain ⟨rfl, htopic⟩ := hk'
      exact absurd hk ((h.create c cm path key hstage htopic).1 r hr)
    · -- both would have found nothing
      refine (h.create c' cm' path' key hc' hkey').2 c (Ne.symm hne) ?_
      rw [hstage]
      exact hkeyed
  | some id =>
    obtain ⟨r₀, hr₀, hid, hrealm, htopic⟩ := h.target c cm path id hstage
    have hkeyed : ∀ realm key, Keyed realm key (nodeRow id cm s.clock) → Keyed realm key r₀ :=
      fun realm key hk => ⟨hrealm.trans hk.1, htopic.trans hk.2⟩
    refine h.built rfl (target_le h hstage).le (fun r hr heq => ?_) (fun r realm key hr hk hk' => ?_)
      fun c' cm' path' key hne hc' hkey' hk' => ?_
    · obtain ⟨hrealm', htopic'⟩ := h.key r r₀ hr (.inl hr₀) (heq.trans hid.symm)
      exact ⟨hrealm'.trans hrealm, htopic'.trans htopic⟩
    · exact (h.unique r r₀ realm key hr (.inl hr₀) hk (hkeyed realm key hk')).trans hid
    · exact (h.create c' cm' path' key hc' hkey').1 r₀ (.inl hr₀) (hkeyed _ _ hk')

end Steps

/-! ### Values -/

inductive Column
  | status
  | importance
  deriving DecidableEq

def Same (f : Column) (r r' : Row B) : Prop :=
  match f with
  | .status => r.status = r'.status
  | .importance => r.importance = r'.importance

def Sets (f : Column) : Origin B → Prop
  | .save _ => True
  | .update (.status _) => f = .status
  | .update (.importance _) => f = .importance

/-- **A row has in a column what was set last**, up to its time. -/
def Right (log : List (Row B × Origin B)) (f : Column) (r : Row B) : Prop :=
  ∀ x ∈ log, x.1.id = r.id → Sets f x.2 → x.1.updatedAt ≤ r.updatedAt → Same f r x.1 ∨
    ∃ y ∈ log, y.1.id = r.id ∧ Sets f y.2 ∧ x.1.updatedAt < y.1.updatedAt ∧ y.1.updatedAt ≤ r.updatedAt

theorem Same.refl (f : Column) (r : Row B) : Same f r r := by
  cases f <;> rfl

theorem same_selected (f : Column) {r' : Row B} (h : Same f r r') : Same f r.selected r' := by
  cases f <;> exact h

theorem same_apply {f : Column} {e : Edit} (hf : ¬ Sets f (.update e : Origin B)) {r' : Row B}
    (h : Same f r r') (now : ℕ) : Same f (e.apply r now) r' := by
  cases f with
  | status =>
    cases e with
    | status s => exact absurd rfl hf
    | importance x => exact h
  | importance =>
    cases e with
    | status s => exact h
    | importance x => exact absurd rfl hf

theorem id_apply (e : Edit) (r : Row B) (now : ℕ) : (e.apply r now).id = r.id := by
  cases e <;> rfl

theorem updatedAt_apply (e : Edit) (r : Row B) (now : ℕ) : (e.apply r now).updatedAt = now := by
  cases e <;> rfl

theorem keyed_apply (e : Edit) (r : Row B) (now : ℕ) :
    (e.apply r now).realm = r.realm ∧ (e.apply r now).topicKey = r.topicKey := by
  cases e <;> exact ⟨rfl, rfl⟩

/-- Something more is set: by a row that is later, or by one of the same time, or by one that a later one of the
log hides. -/
theorem Right.append {log : List (Row B × Origin B)} {f : Column} (h : Right log f r)
    {z : Row B × Origin B}
    (hz : z.1.id = r.id → Sets f z.2 → z.1.updatedAt ≤ r.updatedAt → Same f r z.1 ∨
      ∃ y ∈ log, y.1.id = r.id ∧ Sets f y.2 ∧ z.1.updatedAt < y.1.updatedAt ∧
        y.1.updatedAt ≤ r.updatedAt) : Right (log ++ [z]) f r := by
  have hlift : ∀ t : ℕ, (∃ y ∈ log, y.1.id = r.id ∧ Sets f y.2 ∧ t < y.1.updatedAt ∧
      y.1.updatedAt ≤ r.updatedAt) → ∃ y ∈ log ++ [z], y.1.id = r.id ∧ Sets f y.2 ∧ t < y.1.updatedAt ∧
        y.1.updatedAt ≤ r.updatedAt := by
    rintro t ⟨y, hy, hrest⟩
    exact ⟨y, mem_append_left _ hy, hrest⟩
  intro x hx hid hsets hle
  rcases mem_append.1 hx with hx | hx
  · exact (h x hx hid hsets hle).imp_right (hlift _)
  · cases mem_singleton.1 hx
    exact (hz hid hsets hle).imp_right (hlift _)

/-- **Calls that edit are alone with their memory**, and rows have what was set last. -/
structure Values (s : St B C) : Prop where
  fetched : ∀ c e row, s.calls c = .fetched e row → ∃ r ∈ s.rows, row = r.selected ∧
    ∀ r' ∈ s.rows, r'.id = r.id → r'.updatedAt ≤ r.updatedAt
  alone : ∀ c id, (s.calls c).edits = some id → ∀ c', c' ≠ c → (s.calls c').target ≠ some id
  updated : ∀ c e path row, s.calls c = .built (.update e) path row →
    (∀ r ∈ s.rows, r.id = row.id → r.updatedAt < row.updatedAt) ∧
      ∀ f, ¬ Sets f (.update e : Origin B) → Right s.log f row
  saved : ∀ c cm path row, s.calls c = .built (.save cm) path row →
    ∀ r ∈ s.rows, r.id = row.id → row.updatedAt < r.updatedAt → ∃ cm', (r, .save cm') ∈ s.log
  logged : ∀ x ∈ s.log, x.1 ∈ s.rows
  right : ∀ r ∈ s.rows, ∀ f, Right s.log f r

def Stage.Follows (stage stage' : Stage B) : Prop :=
  stage' = stage ∨ stage'.target = none ∨
    ∃ origin path path' row, stage = .built origin path row ∧ stage' = .built origin path' row

theorem Stage.Follows.target {stage stage' : Stage B} (h : stage.Follows stage') {id : Id}
    (hid : stage'.target = some id) : stage.target = some id := by
  rcases h with rfl | hnone | ⟨origin, path, path', row, rfl, rfl⟩
  · exact hid
  · rw [hnone] at hid
    cases hid
  · exact hid

theorem Stage.Follows.edits {stage stage' : Stage B} (h : stage.Follows stage') {id : Id}
    (hid : stage'.edits = some id) : stage.edits = some id := by
  rcases h with rfl | hnone | ⟨origin, path, path', row, rfl, rfl⟩
  · exact hid
  · rw [target_of_edits hid] at hnone
    cases hnone
  · cases origin <;> exact hid

theorem Stage.Follows.of_built
    (h : stage.Follows (.built origin path row)) : ∃ path', stage = .built origin path' row := by
  rcases h with hsame | hnone | ⟨origin', path', path'', row', hbefore, hafter⟩
  · exact ⟨path, hsame.symm⟩
  · cases hnone
  · cases hafter
    exact ⟨path', hbefore⟩

theorem Values.quiet (h : Values s) (hrows : ∀ r, r ∈ s'.rows ↔ r ∈ s.rows) (hlog : s'.log = s.log)
    (hcalls : ∀ c, (s.calls c).Follows (s'.calls c)) : Values s' := by
  refine ⟨fun c e row hc => ?_, fun c id hid c' hne hid' => ?_, fun c e path row hc => ?_,
    fun c cm path row hc r hr hid hlt => ?_, fun x hx => ?_, fun r hr f => ?_⟩
  · have hbefore : s.calls c = .fetched e row := by
      rcases hcalls c with hsame | hnone | ⟨origin, path, path', row', -, hbuilt⟩
      · rw [← hsame, hc]
      · rw [hc] at hnone
        cases hnone
      · rw [hc] at hbuilt
        cases hbuilt
    obtain ⟨r, hr, hrow, hlatest⟩ := h.fetched c e row hbefore
    exact ⟨r, (hrows r).2 hr, hrow, fun r' hr' => hlatest r' ((hrows r').1 hr')⟩
  · exact h.alone c id ((hcalls c).edits hid) c' hne ((hcalls c').target hid')
  · obtain ⟨path', hbefore⟩ := (hc ▸ hcalls c : (s.calls c).Follows _).of_built
    obtain ⟨hlater, hright⟩ := h.updated c e path' row hbefore
    rw [hlog]
    exact ⟨fun r hr => hlater r ((hrows r).1 hr), hright⟩
  · obtain ⟨path', hbefore⟩ := (hc ▸ hcalls c : (s.calls c).Follows _).of_built
    rw [hlog]
    exact h.saved c cm path' row hbefore r ((hrows r).1 hr) hid hlt
  · rw [hlog] at hx
    exact (hrows _).2 (h.logged x hx)
  · rw [hlog]
    exact h.right r ((hrows r).1 hr) f

section Edits

variable [DecidableEq C]

theorem alone_of_found (h : Values s) {id : Id} (htarget : stage.target = some id)
    (hedits : ∀ c', c' ≠ c → (s.calls c').edits ≠ some id)
    (hown : stage.edits = some id → ∀ c', c' ≠ c → (s.calls c').target ≠ some id) (c₁ : C) (i : Id)
    (hi : ((s.setCall c stage).calls c₁).edits = some i) (c₂ : C) (hne : c₂ ≠ c₁) :
    ((s.setCall c stage).calls c₂).target ≠ some i := by
  rw [calls_setCall] at hi ⊢
  by_cases h₁ : c₁ = c
  · subst h₁
    rw [if_pos rfl] at hi
    have heq := (target_of_edits hi).symm.trans htarget
    cases heq
    rw [if_neg hne]
    exact hown hi c₂ hne
  · rw [if_neg h₁] at hi
    split
    · intro htarget'
      have heq := htarget'.symm.trans htarget
      cases heq
      exact hedits c₁ h₁ hi
    · exact h.alone c₁ i hi c₂ hne

theorem Values.find (h : Values s) {id : Id}
    (hok : ∀ c', c' ≠ c → (s.calls c').edits ≠ some id) : Values (s.setCall c (.resolved cm path (some id))) := by
  have hstage : ∀ {c' : C} {stage : Stage B}, (∀ t, stage ≠ .resolved cm path t) →
      (s.setCall c (.resolved cm path (some id))).calls c' = stage → s.calls c' = stage := by
    intro c' stage hne hc'
    rw [calls_setCall] at hc'
    split at hc'
    · exact absurd hc'.symm (hne _)
    · exact hc'
  exact ⟨fun c' e row hc' => h.fetched c' e row (hstage nofun hc'),
    fun c₁ i hi => alone_of_found h rfl hok (fun hown => by cases hown) c₁ i hi,
    fun c' e path' row hc' => h.updated c' e path' row (hstage nofun hc'),
    fun c' cm' path' row hc' => h.saved c' cm' path' row (hstage nofun hc'), h.logged, h.right⟩

theorem Values.get (h : Values s) {e : Edit} (hlatest : Latest s.table row)
    (hok : Alone s (.get c row)) : Values (s.setCall c (.fetched e row.selected)) := by
  obtain ⟨hpending, hothers⟩ := hok
  have hstage : ∀ {c' : C} {stage : Stage B}, (∀ e r, stage ≠ .fetched e r) →
      (s.setCall c (.fetched e row.selected)).calls c' = stage → s.calls c' = stage := by
    intro c' stage hne hc'
    rw [calls_setCall] at hc'
    split at hc'
    · exact absurd hc'.symm (hne _ _)
    · exact hc'
  refine ⟨fun c' e' row' hc' => ?_, fun c₁ i hi => alone_of_found h rfl
      (fun c' hne hedits => hothers c' hne (target_of_edits hedits)) (fun _ => hothers) c₁ i hi,
    fun c' e' path row' hc' => h.updated c' e' path row' (hstage nofun hc'),
    fun c' cm path row' hc' => h.saved c' cm path row' (hstage nofun hc'), h.logged, h.right⟩
  rw [calls_setCall] at hc'
  split at hc'
  · cases hc'
    refine ⟨row, mem_append_left _ hlatest.1, rfl, fun r' hr' hid => ?_⟩
    rcases mem_append.1 hr' with hr' | hr'
    · exact hlatest.2 r' hr' hid
    · exact absurd hid (hpending r' hr')
  · exact h.fetched c' e' row' hc'

theorem Values.built (h : Values s) (hkeys : Keys s)
    (hstamp : row.updatedAt = s.clock) (hedits : ∀ c', c' ≠ c → (s.calls c').edits ≠ some row.id)
    (hown : ∀ e, origin = .update e → (∀ c', c' ≠ c → (s.calls c').target ≠ some row.id) ∧
      ∀ f, ¬ Sets f (.update e : Origin B) → Right s.log f row) :
    Values { s.setCall c (.built origin path row) with
      clock := s.clock + 1
      nextId := s.nextId + 1 } := by
  have hold : ∀ r ∈ s.rows, r.updatedAt < row.updatedAt := fun r hr => by
    rw [hstamp]
    exact (hkeys.old r (.inl hr)).1
  refine ⟨fun c' e row' hc' => ?_, ?_, fun c' e path' row' hc' => ?_, fun c' cm path' row' hc' => ?_, h.logged, h.right⟩
  · change (s.setCall c (.built origin path row)).calls c' = _ at hc'
    rw [calls_setCall] at hc'
    split at hc'
    · cases hc'
    · exact h.fetched c' e row' hc'
  · refine alone_of_found h rfl hedits fun hi => ?_
    cases origin with
    | save cm => cases hi
    | update e => exact (hown e rfl).1
  · change (s.setCall c (.built origin path row)).calls c' = _ at hc'
    rw [calls_setCall] at hc'
    split at hc'
    · cases hc'
      exact ⟨fun r hr _ => hold r hr, (hown e rfl).2⟩
    · exact h.updated c' e path' row' hc'
  · change (s.setCall c (.built origin path row)).calls c' = _ at hc'
    rw [calls_setCall] at hc'
    split at hc'
    · cases hc'
      exact fun r hr _ hlt => absurd (hold r hr) (Nat.lt_asymm hlt)
    · exact h.saved c' cm path' row' hc'

omit [DecidableEq C] in
theorem Values.right_apply (h : Values s) {e : Edit} (hc : s.calls c = .fetched e row)
    {now : ℕ} (hnow : ∀ r ∈ s.rows, r.updatedAt ≤ now) (f : Column) (hf : ¬ Sets f (.update e : Origin B)) :
    Right s.log f (e.apply row now) := by
  obtain ⟨r, hr, rfl, hlatest⟩ := h.fetched c e row hc
  intro x hx hid hsets hle
  rw [id_apply] at hid
  rw [updatedAt_apply] at hle
  have hxr := hlatest x.1 (h.logged x hx) hid
  rcases h.right r hr f x hx hid hsets hxr with hsame | ⟨y, hy, hyid, hysets, hlt, -⟩
  · exact .inl (same_apply hf (same_selected f hsame) now)
  · refine .inr ⟨y, hy, hyid.trans (id_apply e r.selected now).symm, hysets, hlt, ?_⟩
    rw [updatedAt_apply]
    exact hnow y.1 (h.logged y hy)

theorem Values.enter (h : Values s) (hkeys : Keys s)
    (hc : s.calls c = .built origin path row) (hrows : ∀ r, r ∈ s'.rows ↔ r ∈ s.rows ∨ r = row)
    (hlog : s'.log = s.log ++ [(row, origin)]) (hcalls : s'.calls = (s.setCall c .idle).calls) : Values s' := by
  have htarget : (s.calls c).target = some row.id := by rw [hc]; rfl
  have hstage : ∀ {c' : C} {stage : Stage B}, s'.calls c' = stage → stage ≠ .idle → c' ≠ c ∧ s.calls c' = stage := by
    intro c' stage hc' hne
    rw [hcalls, calls_setCall] at hc'
    split at hc'
    · exact absurd hc'.symm hne
    · rename_i hcc
      exact ⟨hcc, hc'⟩
  have hmem : (row, origin) ∈ s'.log := hlog ▸ mem_append_right _ (mem_singleton_self _)
  -- another call edits another memory
  have hother : ∀ {c' : C} {id : Id}, c' ≠ c → (s.calls c').edits = some id → row.id ≠ id := by
    intro c' id hne hedits heq
    exact h.alone c' id hedits c (Ne.symm hne) (heq ▸ htarget)
  -- what is new to the log hides nothing from rows of the time before
  have hright : ∀ {f : Column} {r : Row B}, r.id ≠ row.id → Right s.log f r → Right s'.log f r := by
    intro f r hne hright
    rw [hlog]
    exact hright.append fun heq => absurd heq.symm hne
  refine ⟨fun c' e row' hc' => ?_, fun c₁ i hi c₂ hne => ?_, fun c' e path' row' hc' => ?_,
    fun c' cm path' row' hc' r hr hid hlt => ?_, fun x hx => ?_, fun r hr f => ?_⟩
  · obtain ⟨hne, hbefore⟩ := hstage hc' nofun
    obtain ⟨r, hr, rfl, hlatest⟩ := h.fetched c' e row' hbefore
    refine ⟨r, (hrows r).2 (.inl hr), rfl, fun r' hr' hid => ?_⟩
    rcases (hrows r').1 hr' with hr' | rfl
    · exact hlatest r' hr' hid
    · exact absurd hid (hother hne (by rw [hbefore]; rfl))
  · rw [hcalls, calls_setCall] at hi ⊢
    split at hi
    · cases hi
    · split
      · exact nofun
      · exact h.alone c₁ i hi c₂ hne
  · obtain ⟨hne, hbefore⟩ := hstage hc' nofun
    obtain ⟨hlater, hbut⟩ := h.updated c' e path' row' hbefore
    have hid : row.id ≠ row'.id := hother hne (by rw [hbefore]; rfl)
    refine ⟨fun r hr heq => ?_, fun f hf => hright (Ne.symm hid) (hbut f hf)⟩
    rcases (hrows r).1 hr with hr | rfl
    · exact hlater r hr heq
    · exact absurd heq hid
  · obtain ⟨hne, hbefore⟩ := hstage hc' nofun
    rcases (hrows r).1 hr with hr | rfl
    · obtain ⟨cm', hsaved⟩ := h.saved c' cm path' row' hbefore r hr hid hlt
      rw [hlog]
      exact ⟨cm', mem_append_left _ hsaved⟩
    · cases origin with
      | save cm' => exact ⟨cm', hmem⟩
      | update e =>
        -- an edit would have been alone with the memory
        refine absurd ?_ (h.alone c r.id (by rw [hc]; rfl) c' hne)
        rw [hbefore, hid]
        rfl
  · rw [hlog] at hx
    rcases mem_append.1 hx with hx | hx
    · exact (hrows _).2 (.inl (h.logged x hx))
    · cases mem_singleton.1 hx
      exact (hrows _).2 (.inr rfl)
  · have hhas : s.Has row := .inr ⟨c, origin, path, hc⟩
    rcases (hrows r).1 hr with hr | rfl
    · rw [hlog]
      refine (h.right r hr f).append fun hid hsets hle => ?_
      rcases Nat.lt_or_eq_of_le hle with hlt | heq
      · cases origin with
        | save cm =>
          obtain ⟨cm', hsaved⟩ := h.saved c cm path row hc r hr hid.symm hlt
          exact .inr ⟨_, hsaved, rfl, trivial, hlt, le_rfl⟩
        | update e => exact absurd ((h.updated c e path row hc).1 r hr hid.symm) (Nat.lt_asymm hlt)
      · rw [hkeys.stamp row r hhas (.inl hr) heq]
        exact .inl (Same.refl f r)
    · by_cases hf : Sets f origin
      · -- the row itself is what was set last
        intro x hx hid hsets hle
        rcases Nat.lt_or_eq_of_le hle with hlt | heq
        · exact .inr ⟨_, hmem, rfl, hf, hlt, le_rfl⟩
        · rw [hlog] at hx
          rcases mem_append.1 hx with hx | hx
          · rw [hkeys.stamp x.1 r (.inl (h.logged x hx)) hhas heq]
            exact .inl (Same.refl f r)
          · cases mem_singleton.1 hx
            exact .inl (Same.refl f r)
      · cases origin with
        | save cm => exact absurd trivial hf
        | update e =>
          rw [hlog]
          exact ((h.updated c e path r hc).2 f hf).append fun _ hsets => absurd hsets hf

end Edits

section Runs

variable [DecidableEq C]

structure Inv (s : St B C) : Prop where
  keys : Keys s
  values : Values s

omit [DecidableEq C] in
theorem inv_empty : Inv (St.empty : St B C) := by
  have hnone : ∀ r, ¬ (St.empty : St B C).Has r := by
    rintro r (hr | ⟨c, origin, path, hc⟩)
    · cases hr
    · cases hc
  refine ⟨⟨fun r hr => absurd hr (hnone r), fun r _ hr => absurd hr (hnone r), fun r _ hr => absurd hr (hnone r),
    fun r _ _ _ hr => absurd hr (hnone r), fun c cm path id hc => ?_, fun c cm path key hc => ?_⟩,
    ⟨fun c e row hc => ?_, fun c id hid => ?_, fun c e path row hc => ?_, fun c cm path row hc => ?_,
      fun x hx => ?_, fun r hr => absurd (.inl hr) (hnone r)⟩⟩
  · cases hc
  · cases hc
  · cases hc
  · cases hid
  · cases hc
  · cases hc
  · cases hx

theorem Inv.enter (h : Inv s)
    (hc : s.calls c = .built origin path row) (hrows : ∀ r, r ∈ s'.rows ↔ r ∈ s.rows ∨ r = row)
    (hlog : s'.log = s.log ++ [(row, origin)]) (hcalls : s'.calls = (s.setCall c .idle).calls)
    (hclock : s'.clock = s.clock) (hnext : s'.nextId = s.nextId) : Inv s' := by
  refine ⟨h.keys.quiet (fun r hr => (hrows r).2 (.inl hr)) (fun r hr => ?_) hclock.ge hnext.ge fun c' => ?_,
    h.values.enter h.keys hc hrows hlog hcalls⟩
  · rcases (hrows r).1 hr with hr | rfl
    · exact .inl hr
    · exact .inr ⟨c, origin, path, hc⟩
  · have hidle : (Stage.idle : Stage B).Quiet s := trivial
    rw [hcalls]
    exact calls_or hidle c'

theorem Inv.call (h : Inv s) (hquiet : stage.Quiet s)
    (hfollows : (s.calls c).Follows stage) (hrows : s'.rows = s.rows) (hlog : s'.log = s.log)
    (hcalls : s'.calls = (s.setCall c stage).calls) (hclock : s'.clock = s.clock)
    (hnext : s'.nextId = s.nextId) : Inv s' := by
  refine ⟨h.keys.quiet (fun r hr => hrows ▸ hr) (fun r hr => .inl (hrows ▸ hr)) hclock.ge hnext.ge fun c' => ?_,
    h.values.quiet (fun r => by rw [hrows]) hlog fun c' => ?_⟩
  · rw [hcalls]
    exact calls_or hquiet c'
  · rw [hcalls, calls_setCall]
    split
    · rename_i hcc
      exact hcc ▸ hfollows
    · exact .inl rfl

omit [DecidableEq C] in
theorem lookupStage_quiet (cm : CreateMemory B) (path : Path) :
    (lookupStage cm path).Quiet s ∧ (lookupStage cm path).target = none := by
  unfold lookupStage
  split
  · rename_i hnone
    exact ⟨⟨rfl, hnone⟩, rfl⟩
  · exact ⟨trivial, rfl⟩

omit [DecidableEq C] in
theorem entry_quiet (marks : Marks) (req : Request B) :
    (entry queue marks req).Quiet s ∧ (entry queue marks req).target = none := by
  cases req with
  | save args =>
    rw [entry_save]
    by_cases hqueue : args.sync.getD false = false ∧ queue = true
    · rw [if_pos hqueue]
      by_cases hkey : (createFromSaveArgs args).topicKey = none
      · rw [if_pos hkey]
        exact ⟨⟨rfl, hkey⟩, rfl⟩
      · rw [if_neg hkey]
        exact ⟨trivial, rfl⟩
    · rw [if_neg hqueue]
      exact lookupStage_quiet _ _
  | update id e => cases queue <;> exact ⟨trivial, rfl⟩

omit [DecidableEq C] in
theorem Inv.edits_lt (h : Inv s) {id : Id} (hedits : (s.calls c).edits = some id) : id < s.nextId := by
  cases hstage : s.calls c with
  | fetched e row =>
    rw [hstage] at hedits
    cases hedits
    obtain ⟨r, hr, rfl, -⟩ := h.values.fetched c e row hstage
    exact (h.keys.old r (.inl hr)).2
  | built origin path row =>
    rw [hstage] at hedits
    cases Option.some.inj ((target_of_edits hedits).symm.trans rfl)
    exact (h.keys.old row (.inr ⟨c, origin, path, hstage⟩)).2
  | _ =>
    rw [hstage] at hedits
    cases hedits

theorem Inv.step (h : Inv s) (hok : Alone s a) (hmove : Moved queue s a s') : Inv s' := by
  cases hmove with
  | start req hidle =>
    obtain ⟨hquiet, htarget⟩ := @entry_quiet B C queue s s.submitted req
    exact h.call hquiet (.inr (.inl htarget)) rfl rfl rfl rfl rfl
  | @pass c timedOut next targets hstage hreached =>
    have hquiet : (Stage.reading next).Quiet s := trivial
    exact h.call hquiet (.inr (.inl rfl)) rfl rfl rfl rfl rfl
  | @find c found cm path key hstage hkey hfinds =>
    refine ⟨h.keys.find hstage hkey hfinds hok, ?_⟩
    cases found with
    | some id => exact h.values.find hok
    | none =>
      refine h.values.quiet (fun _ => Iff.rfl) rfl fun c' => ?_
      rw [calls_setCall]
      split
      · exact .inr (.inl rfl)
      · exact .inl rfl
  | findFails hstage => exact hok.elim
  | @get c row e hstage hlatest =>
    have hquiet : (Stage.fetched e row.selected).Quiet s := trivial
    exact ⟨h.keys.quiet (fun _ hr => hr) (fun _ hr => .inl hr) le_rfl le_rfl fun c' => calls_or hquiet c',
      h.values.get hlatest hok⟩
  | @stampSave c cm path target hstage =>
    refine ⟨h.keys.stampSave hstage, h.values.built h.keys rfl (fun c' hne hedits => ?_) nofun⟩
    cases target with
    | none => exact lt_irrefl _ (h.edits_lt hedits)
    | some id =>
      refine h.values.alone c' _ hedits c (Ne.symm hne) ?_
      rw [hstage]
      rfl
  | @stampUpdate c e row hstage =>
    obtain ⟨r, hr, hrow, -⟩ := h.values.fetched c e row hstage
    have hid : (e.apply row s.clock).id = r.id := by
      rw [id_apply, hrow]
      rfl
    have hkeyed : (e.apply row s.clock).realm = r.realm ∧ (e.apply row s.clock).topicKey = r.topicKey := by
      rw [hrow]
      exact keyed_apply e r.selected s.clock
    have hnow : ∀ r ∈ s.rows, r.updatedAt ≤ s.clock := fun r hr => (h.keys.old r (.inl hr)).1.le
    have hedits : (s.calls c).edits = some (e.apply row s.clock).id := by
      rw [hstage, id_apply]
      rfl
    refine ⟨h.keys.built (updatedAt_apply ..) (hid ▸ (h.keys.old r (.inl hr)).2.le)
        (fun r' hr' heq => ?_) (fun r' realm key hr' hk hk' => ?_) fun c' cm' path' key hne hc' hkey' hk' => ?_,
      h.values.built h.keys (updatedAt_apply ..) (fun c' hne hedits' => ?_) fun e' he' => ?_⟩
    · rw [hkeyed.1, hkeyed.2]
      exact h.keys.key r' r hr' (.inl hr) (heq.trans hid)
    · rw [hid]
      exact h.keys.unique r' r realm key hr' (.inl hr) hk ⟨hkeyed.1.symm.trans hk'.1, hkeyed.2.symm.trans hk'.2⟩
    · exact (h.keys.create c' cm' path' key hc' hkey').1 r (.inl hr)
        ⟨hkeyed.1.symm.trans hk'.1, hkeyed.2.symm.trans hk'.2⟩
    · exact h.values.alone c _ hedits c' hne (target_of_edits hedits')
    · cases he'
      exact ⟨h.values.alone c _ hedits, h.values.right_apply hstage hnow⟩
  | @channel c origin row hstage =>
    refine h.enter hstage (fun r => ?_) rfl rfl rfl rfl
    simp only [mem_rows, map_append, mem_append, map_singleton, mem_singleton]
    tauto
  | @store c origin row hstage =>
    refine h.enter hstage (fun r => ?_) rfl rfl rfl rfl
    simp only [mem_rows, mem_append, mem_singleton]
    tauto
  | @refused c kept origin row hstage =>
    have hkept : kept = false := hok
    subst hkept
    have hrows : St.rows { s.setCall c (refusedStage origin row) with
        seq := s.seq + 1
        parked := s.parked ++ if false = true then [row] else [] } = s.rows := by
      simp [St.rows, St.pending, St.setCall]
    cases origin with
    | save cm =>
      obtain ⟨hquiet, htarget⟩ := @lookupStage_quiet B C s cm .direct
      exact h.call hquiet (.inr (.inl htarget)) hrows rfl rfl rfl rfl
    | update e =>
      have hquiet : (Stage.built (.update e) .direct row).Quiet s := .inr ⟨c, _, _, hstage⟩
      exact h.call hquiet (.inr (.inr ⟨_, _, _, row, hstage, rfl⟩)) hrows rfl rfl rfl rfl
  | @append c told origin row hstage =>
    have htold : told = true := hok
    subst htold
    refine h.enter hstage (fun r => ?_) rfl rfl rfl rfl
    simp only [mem_rows, mem_append, mem_singleton]
    tauto
  | abort c =>
    have hquiet : (Stage.idle : Stage B).Quiet s := trivial
    exact h.call hquiet (.inr (.inl rfl)) rfl rfl rfl rfl rfl
  | flush n landed kept =>
    exact ⟨h.keys.quiet (fun r hr => (rows_flush n landed kept _ r).2 hr)
        (fun r hr => .inl ((rows_flush n landed kept _ r).1 hr)) le_rfl le_rfl fun _ => .inl rfl,
      h.values.quiet (rows_flush n landed kept _) rfl fun _ => .inl rfl⟩
  | @replay i landed kept row hrow =>
    exact ⟨h.keys.quiet (fun r hr => (rows_replay hrow landed kept _ _ r).2 hr)
        (fun r hr => .inl ((rows_replay hrow landed kept _ _ r).1 hr)) le_rfl le_rfl fun _ => .inl rfl,
      h.values.quiet (rows_replay hrow landed kept _ _) rfl fun _ => .inl rfl⟩

def Origin.Carries : Origin B → Row B → Prop
  | .save cm, r => r.status = .active ∧ r.importance = cm.importance
  | .update (.status v), r => r.status = v
  | .update (.importance x), r => r.importance = clamp x

def Stage.Carries (stage : Stage B) : Prop := ∀ origin path row, stage = .built origin path row → origin.Carries row

structure Carried (s : St B C) : Prop where
  built : ∀ c, (s.calls c).Carries
  log : ∀ x ∈ s.log, x.2.Carries x.1

omit [DecidableEq C] in
theorem Carried.of_calls (h : Carried s) (hlog : ∀ x ∈ s'.log, x ∈ s.log ∨ x.2.Carries x.1)
    (hcalls : ∀ c, s'.calls c = s.calls c ∨ (s'.calls c).Carries) : Carried s' := by
  refine ⟨fun c => ?_, fun x hx => (hlog x hx).elim (h.log x) id⟩
  rcases hcalls c with hsame | hcarries
  · exact hsame ▸ h.built c
  · exact hcarries

theorem carries_apply (e : Edit) (row : Row B) (now : ℕ) : (Origin.update e : Origin B).Carries (e.apply row now) := by
  cases e <;> rfl

theorem Carried.step (h : Carried s) (hmove : Moved queue s a s') : Carried s' := by
  have hsame : ∀ x ∈ s.log, x ∈ s.log ∨ x.2.Carries x.1 := fun x hx => .inl hx
  have hadd : ∀ {c : C} {origin : Origin B} {path : Path} {row : Row B}, s.calls c = .built origin path row →
      ∀ x ∈ s.log ++ [(row, origin)], x ∈ s.log ∨ x.2.Carries x.1 := by
    intro c origin path row hc x hx
    rcases mem_append.1 hx with hx | hx
    · exact .inl hx
    · cases mem_singleton.1 hx
      exact .inr (h.built c origin path row hc)
  -- what the stage of the call may be
  have hcall : ∀ (c : C) (stage : Stage B), stage.Carries →
      ∀ c', (s.setCall c stage).calls c' = s.calls c' ∨ ((s.setCall c stage).calls c').Carries :=
    fun c stage hstage => calls_or hstage
  have hresolved : ∀ (cm : CreateMemory B) (path : Path) (target : Option Id),
      (Stage.resolved cm path target).Carries := by
    intro cm path target origin path' row heq
    cases heq
  have hfetched : ∀ (e : Edit) (r : Row B), (Stage.fetched e r).Carries := by
    intro e r origin path row heq
    cases heq
  have hfree : ∀ {stage : Stage B}, stage.target = none → stage.Carries := by
    rintro stage hnone origin path row rfl
    cases hnone
  cases hmove with
  | start req hidle => exact h.of_calls hsame (hcall _ _ (hfree (@entry_quiet B C queue s s.submitted req).2))
  | pass hstage hreached | abort c => exact h.of_calls hsame (hcall _ _ (hfree rfl))
  | @find c found cm path key hstage hkey hfinds =>
    exact h.of_calls hsame (hcall c _ (hresolved cm path found))
  | @findFails c cm path hstage => exact h.of_calls hsame (hcall c _ (hresolved cm path none))
  | @get c row e hstage hlatest => exact h.of_calls hsame (hcall c _ (hfetched e row.selected))
  | stampSave hstage =>
    refine h.of_calls hsame (hcall _ _ fun origin path row heq => ?_)
    cases heq
    exact ⟨rfl, rfl⟩
  | stampUpdate hstage =>
    refine h.of_calls hsame (hcall _ _ fun origin path row heq => ?_)
    cases heq
    exact carries_apply ..
  | channel hstage | store hstage => exact h.of_calls (hadd hstage) (hcall _ _ (hfree rfl))
  | @refused c kept origin row hstage =>
    refine h.of_calls hsame (hcall _ _ ?_)
    cases origin with
    | save cm => exact hfree (@lookupStage_quiet B C s cm .direct).2
    | update e =>
      intro origin path row' heq
      cases heq
      exact h.built c _ _ _ hstage
  | @append c told origin row hstage =>
    refine h.of_calls ?_ (hcall _ _ (hfree rfl))
    cases told with
    | true => exact hadd hstage
    | false => exact fun x hx => .inl (append_nil s.log ▸ hx)
  | flush n landed kept | replay landed kept hrow => exact h.of_calls hsame fun _ => .inl rfl

end Runs

section Results

variable [DecidableEq B] [DecidableEq C]

/-- **One memory for a key, and no edit undone.**  In every run of calls whose steps meet the condition, rows
with one realm and topic key are rows of one memory, those that are queued or set aside included.  The row of
every call that has succeeded is stored or under way, with what the call was to set.  Once all rows are stored,
the newest row of a memory has in each column what the last call has set that set it. -/
theorem one_memory_no_edit_undone (queue : Bool) (s : St B C) (h : Runs.Reach (step queue) Alone St.empty s) :
    (∀ r ∈ s.rows, ∀ r' ∈ s.rows, ∀ realm key, Keyed realm key r → Keyed realm key r' → r.id = r'.id) ∧
    (∀ x ∈ s.log, x.1 ∈ s.rows ∧ x.2.Carries x.1) ∧
    (s.pending = [] → ∀ r, Latest s.table r → ∀ f, ∀ x ∈ s.log, x.1.id = r.id → Sets f x.2 →
      Same f r x.1 ∨ ∃ y ∈ s.log, y.1.id = r.id ∧ Sets f y.2 ∧ x.1.updatedAt < y.1.updatedAt) := by
  have hempty : Carried (St.empty : St B C) := by
    refine ⟨fun c origin path row hc => ?_, fun x hx => ?_⟩
    · cases hc
    · cases hx
  have hinv : Inv s ∧ Carried s := h.inv (I := fun s => Inv s ∧ Carried s) ⟨inv_empty, hempty⟩ fun _ _ _ hi hok hstep =>
    ⟨hi.1.step hok (moved_of_step hstep), hi.2.step (moved_of_step hstep)⟩
  obtain ⟨⟨hkeys, hvalues⟩, hcarried⟩ := hinv
  refine ⟨fun r hr r' hr' realm key hk hk' => hkeys.unique r r' realm key (.inl hr) (.inl hr') hk hk',
    fun x hx => ⟨hvalues.logged x hx, hcarried.log x hx⟩, fun hpending r hlatest f x hx hid hsets => ?_⟩
  have htable : ∀ r ∈ s.rows, r ∈ s.table := by
    intro r hr
    rw [St.rows, hpending, append_nil] at hr
    exact hr
  have hle := hlatest.2 x.1 (htable _ (hvalues.logged x hx)) hid
  rcases hvalues.right r (mem_append_left _ hlatest.1) f x hx hid hsets hle with
    hsame | ⟨y, hy, hyid, hysets, hlt, -⟩
  · exact .inl hsame
  · exact .inr ⟨y, hy, hyid, hysets, hlt⟩

/-- A save with the key `k`. -/
def saveOf (sync : Bool) : Request Unit := .save ⟨none, some ['k'], some 1, some sync, [], none, none, ()⟩

/-- A save, and another one with the key after its row is stored. -/
theorem one_memory_no_edit_undone_twice :
    ∃ s : St Unit Unit, Runs.Reach (step true) Alone St.empty s ∧ s.table.length = 2 ∧
      ∀ r ∈ s.rows, ∀ r' ∈ s.rows, ∀ realm key, Keyed realm key r → Keyed realm key r' → r.id = r'.id := by
  have h₁ := (Runs.Reach.init : Runs.Reach (step true) Alone (St.empty : St Unit Unit) St.empty).step
    (Action.start () (saveOf false)) trivial rfl
  have h₂ := h₁.step (Action.pass () false) trivial rfl
  have h₃ := h₂.step (Action.find () none)
    (fun cm path key _ _ => ⟨nofun, fun c' hne => absurd rfl hne⟩) rfl
  have h₄ := h₃.step (Action.stamp ()) trivial rfl
  have h₅ := h₄.step (Action.send () .channel) trivial rfl
  have h₆ := h₅.step (Action.flush 1 true false) trivial rfl
  have h₇ := h₆.step (Action.start () (saveOf false)) trivial rfl
  have h₈ := h₇.step (Action.pass () false) trivial rfl
  have h₉ := h₈.step (Action.find () (some 0)) (fun c' hne => absurd rfl hne) rfl
  have h₁₀ := h₉.step (Action.stamp ()) trivial rfl
  have h₁₁ := h₁₀.step (Action.send () .channel) trivial rfl
  have h := h₁₁.step (Action.flush 1 true false) trivial rfl
  exact ⟨_, h, rfl, (one_memory_no_edit_undone true _ h).1⟩

instance (f : Column) (origin : Origin B) : Decidable (Sets f origin) :=
  match origin with
  | .save _ => isTrue trivial
  | .update (.status _) => inferInstanceAs (Decidable (f = .status))
  | .update (.importance _) => inferInstanceAs (Decidable (f = .importance))

/-- The memory of `saveOf`. -/
def savedMemory : CreateMemory Unit := ⟨defaultRealm, some ['k'], 1, [], none, none, ()⟩

def after (as : List (Action Unit Bool)) : Option (St Unit Bool) := Runs.run (step true) Runs.Free St.empty as

/-- **Two memories of one key, and an edit undone.**  A save that waits until it is stored does not see one that
is queued.  Of two edits that have both read the memory, the second writes back what the first has set. -/
theorem two_memories_and_an_edit_undone :
    (∃ s : St Unit Bool, Runs.Reach (step true) Runs.Free St.empty s ∧ s.pending = [] ∧
      ∃ r ∈ s.table, ∃ r' ∈ s.table, Keyed defaultRealm ['k'] r ∧ Keyed defaultRealm ['k'] r' ∧ r.id ≠ r'.id) ∧
    ∃ s : St Unit Bool, Runs.Reach (step true) Runs.Free St.empty s ∧ s.pending = [] ∧
      ∃ r ∈ s.table, Latest s.table r ∧ ∃ x ∈ s.log, x.1.id = r.id ∧ Sets .importance x.2 ∧
        x.1.importance = 0 ∧ r.importance = 1 ∧
        ∀ y ∈ s.log, y.1.id = r.id → Sets .importance y.2 → y.1.updatedAt ≤ x.1.updatedAt := by
  constructor
  · have hrun : (after [.start false (saveOf false), .pass false false, .find false none, .stamp false,
        .send false .channel, .start true (saveOf true), .find true none, .stamp true, .append true true,
        .flush 1 true false]).any fun s => decide (s.pending = [] ∧ ∃ r ∈ s.table, ∃ r' ∈ s.table,
          Keyed defaultRealm ['k'] r ∧ Keyed defaultRealm ['k'] r' ∧ r.id ≠ r'.id) := by
      decide +kernel
    obtain ⟨s, hs, hspec⟩ := (Option.any_eq_true ..).1 hrun
    exact ⟨s, Runs.reach_of_run hs, of_decide_eq_true hspec⟩
  · have hrun : (after [.start false (saveOf false), .pass false false, .find false none, .stamp false,
        .send false .channel, .flush 1 true false, .start false (.update 0 (.importance 0)), .pass false false,
        .start true (.update 0 (.status .archived)), .pass true false, .get false (nodeRow 0 savedMemory 0),
        .get true (nodeRow 0 savedMemory 0), .stamp false, .stamp true, .send false .channel,
        .send true .channel, .flush 2 true false]).any fun s => decide (s.pending = [] ∧
          ∃ r ∈ s.table, Latest s.table r ∧ ∃ x ∈ s.log, x.1.id = r.id ∧ Sets .importance x.2 ∧
            x.1.importance = 0 ∧ r.importance = 1 ∧
            ∀ y ∈ s.log, y.1.id = r.id → Sets .importance y.2 → y.1.updatedAt ≤ x.1.updatedAt) := by
      decide +kernel
    obtain ⟨s, hs, hspec⟩ := (Option.any_eq_true ..).1 hrun
    exact ⟨s, Runs.reach_of_run hs, of_decide_eq_true hspec⟩

end Results

end MemoryCalls
