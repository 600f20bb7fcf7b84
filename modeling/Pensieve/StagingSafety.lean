/-
**What the staging buffer keeps under every interleaving.**

A producer compares schemas under one lock acquisition and inserts under another.  Two things can
happen in between: another producer leaves batches of another schema in the entry, and the shutdown
lists the tables it is going to flush.
-/

import Pensieve.StagingBuffer

namespace Staging

open Function
open List

variable {S : Type}

/-! ### The properties -/

def World.handed (w : World S) (f : ℕ) : List (Batch S) :=
  match w.flushes f with
  | some fl => (fl.taken.map Taken.batches).getD []
  | none => []

def Uniform (w : World S) : Prop :=
  (∀ t e, w.buffer t = some e → ∀ b ∈ e.batches, b.schema = e.schema) ∧
    ∀ f fl tk, w.flushes f = some fl → fl.taken = some tk → ∀ b ∈ tk.batches, b.schema = tk.schema

def Once (w : World S) : Prop :=
  (∀ f, (w.handed f).Nodup) ∧ (∀ b f g, b ∈ w.handed f → b ∈ w.handed g → f = g) ∧
    ∀ b f t e, b ∈ w.handed f → w.buffer t = some e → b ∉ e.batches

/-- A request that returns with success has all its batches in one committed extent, and none of
them anywhere else in the catalog. -/
def Stored (w : World S) : Prop :=
  ∀ p s, w.submits p = some s → ∀ o, s.phase = .returned o → o ≠ .failed →
    s.batches = [] ∨ ∃ x ∈ w.committed, (∀ b ∈ s.batches, b ∈ x.batches) ∧ x.batches.Nodup ∧
      (w.committed.map Extent.id).Nodup ∧ ∀ y ∈ w.committed, ∀ b ∈ s.batches, b ∈ y.batches → y = x

def Drained (w : World S) : Prop := w.drain = .complete → ∀ t e, w.buffer t = some e → e.batches = []

structure Safe (w : World S) : Prop where
  uniform : Uniform w
  once : Once w
  stored : Stored w
  drained : Drained w

/-! ### The condition on insertions -/

def World.drains (w : World S) (t : TableId) : Bool :=
  match w.drain with
  | .notStarted => true
  | .flushing rest current => rest.contains t ||
      (current.bind w.flushes).any fun fl => fl.status == .starting && fl.table == t
  | .complete => false

section Condition

variable [DecidableEq S]

def World.matches (w : World S) (s : Submit S) : Bool :=
  (w.buffer s.table).all fun e => e.batches.isEmpty || e.schema == s.schema

def Orderly (w : World S) : Action S → Prop
  | .insert p _ _ => (w.submits p).all fun s => w.matches s && w.drains s.table
  | _ => True

instance (w : World S) : (a : Action S) → Decidable (Orderly w a)
  | .insert p _ _ => inferInstanceAs (Decidable (((w.submits p).all fun s => w.matches s && w.drains s.table) = true))
  | .submit _ _ _ _ | .check _ _ | .resume _ | .cancel _ | .age _ _ _ | .take _ _ | .abort _
  | .write _ | .commitDirect _ _ | .hand _ | .receive _ | .commitGroup _ _ | .wake _ | .drainList
  | .drainFlush _ | .drainNext => isTrue trivial

theorem Orderly.insert {w : World S} {p f now : ℕ} {s : Submit S}
    (h : Orderly w (.insert p f now)) (hs : w.submits p = some s) : w.matches s = true ∧ w.drains s.table = true := by
  simpa [Orderly, hs] using h

theorem World.matches_iff {w : World S} {s : Submit S} : w.matches s = true ↔
    ∀ e, w.buffer s.table = some e → e.batches = [] ∨ e.schema = s.schema := by
  simp [World.matches, Option.all_eq_true]

end Condition

/-! ### Steps that leave the entries alone -/

def Submit.Ok (s : Submit S) : Prop :=
  (∀ b ∈ s.batches, b.schema = s.schema) ∧ (s.phase = .returned .noop → s.batches = [])

def Requests (w : World S) : Prop := ∀ p s, w.submits p = some s → s.Ok

/-- What most steps have in common: no entry changes, the shutdown stays where it is, no flush gets
any batches, and a flush that waits for the lock goes on waiting. -/
structure Quiet (w w' : World S) : Prop where
  buffer : w'.buffer = w.buffer
  drain : w'.drain = w.drain
  taken : ∀ f fl' tk, w'.flushes f = some fl' → fl'.taken = some tk → ∃ fl, w.flushes f = some fl ∧ fl.taken = some tk
  starting : ∀ f fl, w.flushes f = some fl → fl.status = .starting → w'.flushes f = some fl
  requests : Requests w → Requests w'

section Quietly

variable {w w' w'' : World S}

theorem Quiet.trans (h : Quiet w w') (h' : Quiet w' w'') : Quiet w w'' where
  buffer := h'.buffer.trans h.buffer
  drain := h'.drain.trans h.drain
  taken := fun f fl' tk hf htk => by
    obtain ⟨fl, hfl, htk'⟩ := h'.taken f fl' tk hf htk
    exact h.taken f fl tk hfl htk'
  starting := fun f fl hf hst => h'.starting f fl (h.starting f fl hf hst) hst
  requests := fun hr => h'.requests (h.requests hr)

theorem Quiet.of_eq (hb : w'.buffer = w.buffer) (hd : w'.drain = w.drain)
    (hf : w'.flushes = w.flushes) (hs : w'.submits = w.submits) : Quiet w w' where
  buffer := hb
  drain := hd
  taken := fun _ fl' _ hfl htk => ⟨fl', hf ▸ hfl, htk⟩
  starting := fun _ _ hfl _ => hf ▸ hfl
  requests := fun hr p s hps => hr p s (hs ▸ hps)

theorem Quiet.setSubmit {p : ℕ} {s' : Submit S} (hok : Requests w → s'.Ok) : Quiet w (w.setSubmit p s') where
  buffer := rfl
  drain := rfl
  taken := fun _ fl' _ hfl htk => ⟨fl', hfl, htk⟩
  starting := fun _ _ hfl _ => hfl
  requests := fun hr q s hs => by
    by_cases hqp : q = p
    · subst hqp
      obtain rfl : s' = s := by simpa [World.setSubmit] using hs
      exact hok hr
    · exact hr q s (by simpa [World.setSubmit, update_of_ne hqp] using hs)

theorem Quiet.setPhase {p : ℕ} {s : Submit S} (hs : w.submits p = some s) {ph : Phase}
    (hne : ph ≠ .returned .noop) : Quiet w (w.setSubmit p { s with phase := ph }) :=
  .setSubmit fun hr => ⟨(hr p s hs).1, fun heq => absurd heq hne⟩

variable {f : ℕ}

theorem Quiet.spawn (hf : w.flushes f = none) (t : TableId) : Quiet w (w.spawn f t) where
  buffer := rfl
  drain := rfl
  taken := fun g fl' tk hg htk => by
    by_cases hgf : g = f
    · subst hgf
      obtain rfl : (⟨t, .starting, none, 0⟩ : Flush S) = fl' := by simpa [World.spawn] using hg
      cases htk
    · exact ⟨fl', by simpa [World.spawn, update_of_ne hgf] using hg, htk⟩
  starting := fun g fl hg _ => by
    have hgf : g ≠ f := by
      rintro rfl
      rw [hf] at hg
      cases hg
    simpa [World.spawn, update_of_ne hgf] using hg
  requests := fun hr => hr

theorem Quiet.mark {fs : List ℕ} {st : Status}
    (hfs : ∀ f ∈ fs, ∀ fl, w.flushes f = some fl → fl.status ≠ .starting) :
    Quiet w (w.mark fs st) where
  buffer := rfl
  drain := rfl
  taken := fun f fl' tk hf htk => by
    obtain ⟨fl, hfl, hsame, -⟩ := mark_flushes hf
    exact ⟨fl, hfl, hsame ▸ htk⟩
  starting := fun f fl hf hst => by
    have hmem : f ∉ fs := fun hmem => hfs f hmem fl hf hst
    simpa [World.mark, hmem] using hf
  requests := fun hr => hr

theorem Quiet.settle {waiters : List ℕ} {o : Outcome} (ho : o ≠ .noop) : Quiet w (w.settle waiters o) where
  buffer := rfl
  drain := rfl
  taken := fun _ fl' _ hfl htk => ⟨fl', hfl, htk⟩
  starting := fun _ _ hfl _ => hfl
  requests := fun hr p s' hs' => by
    simp only [World.settle] at hs'
    split at hs'
    · obtain ⟨s, hs, rfl⟩ := Option.map_eq_some_iff.mp hs'
      split
      · exact ⟨(hr p s hs).1, fun heq => absurd (Phase.returned.inj heq) ho⟩
      · exact hr p s hs
    · exact hr p s' hs'

theorem Quiet.fail {fs : List ℕ}
    (hfs : ∀ f ∈ fs, ∀ fl, w.flushes f = some fl → fl.status ≠ .starting) : Quiet w (w.fail fs) := by
  have hs : Quiet w (w.settle (fs.flatMap w.waitersOf) .failed) := .settle (by simp)
  exact hs.trans (.mark hfs)

theorem Quiet.commit {fs : List ℕ}
    (hfs : ∀ f ∈ fs, ∀ fl, w.flushes f = some fl → fl.status ≠ .starting) : Quiet w (w.commit fs) :=
  (Quiet.mark hfs).trans (.of_eq rfl rfl rfl rfl)

def Action.quiet : Action S → Bool
  | .insert _ _ _ | .take _ _ | .drainList | .drainFlush _ | .drainNext => false
  | _ => true

theorem Quiet.retry {fl : Flush S} (hf : w.flushes f = some fl) (hst : fl.status ≠ .starting) (n : ℕ) :
    Quiet w { w with flushes := Function.update w.flushes f (some { fl with attempt := n }) } where
  buffer := rfl
  drain := rfl
  taken := fun g fl' tk hg htk => by
    by_cases hgf : g = f
    · subst hgf
      obtain rfl : { fl with attempt := n } = fl' := by simpa using hg
      exact ⟨fl, hf, htk⟩
    · exact ⟨fl', by simpa [update_of_ne hgf] using hg, htk⟩
  starting := fun g fl' hg hst' => by
    have hgf : g ≠ f := by
      rintro rfl
      obtain rfl : fl = fl' := by simpa [hf] using hg
      exact hst hst'
    simpa [update_of_ne hgf] using hg
  requests := fun hr => hr

theorem forall_singleton_flush {fl : Flush S} (hf : w.flushes f = some fl)
    (hst : fl.status ≠ .starting) : ∀ g ∈ [f], ∀ fl', w.flushes g = some fl' → fl'.status ≠ .starting := by
  intro g hg fl' hfl'
  rw [mem_singleton.mp hg, hf] at hfl'
  cases hfl'
  exact hst

theorem Quiet.commitDirect {fl : Flush S} (hf : w.flushes f = some fl) (hst : fl.status = .written)
    (a : Attempt) : Quiet w (w.commitDirect f fl a) := by
  have hne : fl.status ≠ .starting := by simp [hst]
  cases a with
  | ok => exact .commit (forall_singleton_flush hf hne)
  | conflict =>
    simp only [World.commitDirect]
    split
    · exact .retry hf hne _
    · exact .fail (forall_singleton_flush hf hne)
  | error => exact .fail (forall_singleton_flush hf hne)

theorem Quiet.commitGroup (h : Inv w) (t : TableId) (n : ℕ) (a : Attempt) : Quiet w (w.commitGroup t n a) := by
  have hjobs : ∀ f ∈ w.jobsOf t, ∀ fl, (w.nextGroup t).flushes f = some fl → fl.status ≠ .starting := by
    intro f hf fl hfl
    have hmem : f ∈ w.channel ++ w.batch := mem_append_right _ (mem_of_mem_filter hf)
    obtain ⟨fl', hfl', hst⟩ := h.jobs f hmem
    obtain rfl : fl' = fl := Option.some.inj (hfl'.symm.trans hfl)
    simp [hst]
  have hnext : Quiet w (w.nextGroup t) := .of_eq rfl rfl rfl rfl
  cases a with
  | ok => exact hnext.trans (.commit hjobs)
  | conflict =>
    simp only [World.commitGroup]
    split
    · exact .of_eq rfl rfl rfl rfl
    · exact hnext.trans (.fail hjobs)
  | error => exact hnext.trans (.fail hjobs)

theorem Quiet.check [DecidableEq S] {p : ℕ} {s : Submit S} (hs : w.submits p = some s)
    (hw : w.check p f s = some w') : Quiet w w' := by
  simp only [World.check] at hw
  split at hw
  · split at hw
    · cases hw
      exact .setPhase hs (by simp)
    · obtain ⟨hnone, hw⟩ := Option.ite_none_right_eq_some.mp hw
      cases hw
      have hq : Quiet w (w.setSubmit p { s with phase := .flushing f }) := .setPhase hs (by simp)
      refine hq.trans (.spawn ?_ s.table)
      exact hnone
  · cases hw
    exact .setPhase hs (by simp)

theorem quiet_step [DecidableEq S] {cfg : Config} {a : Action S} (h : Inv w) (ha : a.quiet = true)
    (hstep : step cfg w a = some w') : Quiet w w' := by
  cases a with
  | submit p table schema sizes =>
    obtain ⟨-, hw⟩ := Option.ite_none_right_eq_some.mp hstep
    cases hw
    refine .setSubmit fun _ => ⟨fun b hb => (owner_mkBatches hb).2, fun hph => ?_⟩
    by_cases hsizes : sizes = []
    · simp [hsizes, mkBatches]
    · simp [hsizes] at hph
  | check p f =>
    obtain ⟨s, hs, hrest⟩ := Option.bind_eq_some_iff.mp hstep
    obtain ⟨-, hw⟩ := Option.ite_none_right_eq_some.mp hrest
    exact .check hs hw
  | resume p =>
    obtain ⟨s, hs, hrest⟩ := Option.bind_eq_some_iff.mp hstep
    split at hrest
    · obtain ⟨-, hw⟩ := Option.ite_none_right_eq_some.mp hrest
      cases hw
      exact .setPhase hs (by simp)
    · cases hrest
  | cancel p =>
    obtain ⟨s, hs, hrest⟩ := Option.bind_eq_some_iff.mp hstep
    split at hrest
    · cases hrest
    · cases hrest
      exact .setPhase hs (by simp)
  | age table f now =>
    obtain ⟨e, -, hrest⟩ := Option.bind_eq_some_iff.mp hstep
    obtain ⟨⟨-, -, hnone⟩, hw⟩ := Option.ite_none_right_eq_some.mp hrest
    cases hw
    exact .spawn hnone table
  | abort f =>
    obtain ⟨fl, hf, hrest⟩ := Option.bind_eq_some_iff.mp hstep
    obtain ⟨hst, hw⟩ := Option.ite_none_right_eq_some.mp hrest
    cases hw
    exact .fail (forall_singleton_flush hf (by rcases hst with e | e <;> simp [e]))
  | write f =>
    obtain ⟨fl, hf, hrest⟩ := Option.bind_eq_some_iff.mp hstep
    split at hrest
    · rename_i tk hst htk
      cases hrest
      have hone := forall_singleton_flush hf (by simp [hst])
      simp only [World.write]
      split
      · exact .mark hone
      · exact .fail hone
    · cases hrest
  | commitDirect f attempt =>
    obtain ⟨fl, hf, hrest⟩ := Option.bind_eq_some_iff.mp hstep
    obtain ⟨⟨hst, -⟩, hw⟩ := Option.ite_none_right_eq_some.mp hrest
    cases hw
    exact .commitDirect hf hst attempt
  | hand f =>
    obtain ⟨fl, hf, hrest⟩ := Option.bind_eq_some_iff.mp hstep
    obtain ⟨⟨hst, -⟩, hw⟩ := Option.ite_none_right_eq_some.mp hrest
    cases hw
    have hq : Quiet w (w.mark [f] .queued) := .mark (forall_singleton_flush hf (by simp [hst]))
    exact hq.trans (.of_eq rfl rfl rfl rfl)
  | receive n =>
    obtain ⟨max, -, hrest⟩ := Option.bind_eq_some_iff.mp hstep
    obtain ⟨-, hw⟩ := Option.ite_none_right_eq_some.mp hrest
    cases hw
    exact .of_eq rfl rfl rfl rfl
  | commitGroup table attempt =>
    obtain ⟨-, hrest⟩ := Option.ite_none_left_eq_some.mp hstep
    split at hrest
    · cases hrest
      exact .commitGroup h table 0 attempt
    · obtain ⟨-, hw⟩ := Option.ite_none_right_eq_some.mp hrest
      cases hw
      exact .commitGroup h table _ attempt
  | wake f =>
    obtain ⟨fl, hf, hrest⟩ := Option.bind_eq_some_iff.mp hstep
    obtain ⟨hst, hw⟩ := Option.ite_none_right_eq_some.mp hrest
    cases hw
    have hq : Quiet w (w.settle (w.waitersOf f) (.flushed f)) := .settle (by simp)
    exact hq.trans (.mark (forall_singleton_flush hf (by simp [hst])))
  | insert p f now | take f now | drainList | drainFlush f | drainNext => cases ha

end Quietly

section Everywhere

variable {w : World S}

theorem mem_handed {f : ℕ} {b : Batch S} (hb : b ∈ w.handed f) :
    ∃ fl tk, w.flushes f = some fl ∧ fl.taken = some tk ∧ b ∈ tk.batches := by
  cases hf : w.flushes f with
  | none => simp [World.handed, hf] at hb
  | some fl =>
    cases htk : fl.taken with
    | none => simp [World.handed, hf, htk] at hb
    | some tk => exact ⟨fl, tk, rfl, htk, by simpa [World.handed, hf, htk] using hb⟩

theorem Inv.owner_of_mem (h : Inv w) {p : ℕ} {b : Batch S} (hb : b ∈ w.batchesOf p) : b.owner = p := by
  cases hs : w.submits p with
  | none => simp [World.batchesOf, hs] at hb
  | some s => exact (h.owned p s hs).2 b (by simpa [World.batchesOf, hs] using hb)

theorem Holds.owner_mem (h : Inv w) {waiters : List ℕ} {batches : List (Batch S)}
    {where_ : Option ℕ} (hh : Holds w waiters batches where_) {b : Batch S} (hb : b ∈ batches) :
    b.owner ∈ waiters ∧ b ∈ w.batchesOf b.owner := by
  rw [hh.batches_eq] at hb
  obtain ⟨p, hp, hmem⟩ := mem_flatMap.mp hb
  rw [h.owner_of_mem hmem]
  exact ⟨hp, hmem⟩

theorem Holds.nodup_batches (h : Inv w) {waiters : List ℕ} {batches : List (Batch S)}
    {where_ : Option ℕ} (hh : Holds w waiters batches where_) : batches.Nodup := by
  rw [hh.batches_eq]
  refine nodup_flatMap.mpr ⟨fun p _ => ?_, ?_⟩
  · cases hs : w.submits p with
    | none => simp [World.batchesOf, hs]
    | some s => simpa [World.batchesOf, hs] using (h.owned p s hs).1
  · -- two requests share no batch, because a batch knows its owner
    refine hh.nodup.imp fun {p q} hne b hbp hbq => hne ?_
    exact (h.owner_of_mem hbp).symm.trans (h.owner_of_mem hbq)

theorem Inv.once (h : Inv w) : Once w := by
  refine ⟨fun f => ?_, ?_, ?_⟩
  · cases hf : w.flushes f with
    | none => simp [World.handed, hf]
    | some fl =>
      cases htk : fl.taken with
      | none => simp [World.handed, hf, htk]
      | some tk => simpa [World.handed, hf, htk] using (h.taken f fl tk hf htk).nodup_batches h
  · intro b f g hf hg
    obtain ⟨fl, tk, hfl, htk, hb⟩ := mem_handed hf
    obtain ⟨gl, tk', hgl, htk', hb'⟩ := mem_handed hg
    have h₁ := (h.taken f fl tk hfl htk).placed _ ((h.taken f fl tk hfl htk).owner_mem h hb).1
    have h₂ := (h.taken g gl tk' hgl htk').placed _
      ((h.taken g gl tk' hgl htk').owner_mem h hb').1
    simpa [h₁] using h₂
  · intro b f t e hf he hb'
    obtain ⟨fl, tk, hfl, htk, hb⟩ := mem_handed hf
    have h₁ := (h.taken f fl tk hfl htk).placed _ ((h.taken f fl tk hfl htk).owner_mem h hb).1
    have hentry := (h.entry t e he).2.1
    have h₂ := hentry.placed _ (hentry.owner_mem h hb').1
    rw [h₁] at h₂
    cases h₂

theorem Inv.mem_handed_of_committed (h : Inv w) {x : Extent S} (hx : x ∈ w.committed) :
    w.handed x.id = x.batches := by
  obtain ⟨fl, tk, hfl, htk, hbat, -⟩ := h.extents x hx
  simp [World.handed, hfl, htk, hbat]

theorem Inv.stored (h : Inv w) (hr : Requests w) : Stored w := by
  intro p s hs o hph hne
  cases o with
  | noop => exact .inl ((hr p s hs).2 hph)
  | failed => exact absurd rfl hne
  | flushed f =>
    obtain ⟨hid, hwait⟩ := h.returned p s f hs hph
    obtain ⟨x, hx, rfl⟩ := mem_map.mp hid
    obtain ⟨fl, tk, hfl, htk, hbat, -⟩ := h.extents x hx
    have hhold : Holds w tk.waiters tk.batches (some x.id) := h.taken x.id fl tk hfl htk
    have hmem : p ∈ tk.waiters := by simpa [waitersOf_eq hfl, htk] using hwait
    have hall : ∀ b ∈ s.batches, b ∈ x.batches := by
      intro b hb
      rw [hbat, hhold.batches_eq]
      exact mem_flatMap.mpr ⟨p, hmem, by simpa [World.batchesOf, hs] using hb⟩
    refine .inr ⟨x, hx, hall, ?_, h.extentIds, ?_⟩
    · rw [hbat]
      exact hhold.nodup_batches h
    · -- another extent with one of the batches comes from the same flush
      intro y hy b hb hby
      have hsame : y.id = x.id := by
        refine h.once.2.1 b y.id x.id ?_ ?_
        · rwa [h.mem_handed_of_committed hy]
        · rw [h.mem_handed_of_committed hx]
          exact hall b hb
      exact inj_on_of_nodup_map h.extentIds hy hx hsame

end Everywhere

section Schemas

variable {w w' : World S}

theorem quiet_insert {cfg : Config} {p f now : ℕ} {s : Submit S}
    (hw : w.insert cfg p f now s = some w') :
    Quiet (w.inserted p s (((w.buffer s.table).getD (.empty s.schema now)).insert p s)) w' := by
  simp only [World.insert] at hw
  split at hw
  · obtain ⟨hnone, hw⟩ := Option.ite_none_right_eq_some.mp hw
    cases hw
    refine .spawn ?_ s.table
    exact hnone
  · cases hw
    exact .of_eq rfl rfl rfl rfl

theorem Uniform.quiet (h : Uniform w) (hq : Quiet w w') : Uniform w' := by
  refine ⟨fun t e he => h.1 t e (hq.buffer ▸ he), fun f fl' tk hf htk => ?_⟩
  obtain ⟨fl, hfl, htk'⟩ := hq.taken f fl' tk hf htk
  exact h.2 f fl tk hfl htk'

/-- **An insertion keeps the schemas apart exactly when** the entry is empty or has the request's
schema. -/
theorem uniform_inserted_iff [DecidableEq S] (h : Uniform w) (p now : ℕ) {s : Submit S}
    (hok : s.Ok) : Uniform (w.inserted p s (((w.buffer s.table).getD (.empty s.schema now)).insert p s)) ↔
      w.matches s = true := by
  rw [World.matches_iff]
  constructor
  · -- a batch of the old schema is still there, under the new one
    intro hu e he
    by_contra hne
    obtain ⟨hbatches, hschema⟩ := not_or.mp hne
    obtain ⟨b, hb⟩ := exists_mem_of_ne_nil e.batches hbatches
    refine hschema ((h.1 s.table e he b hb).symm.trans ?_)
    refine hu.1 s.table (e.insert p s) ?_ b (mem_append_left _ hb)
    simp [World.inserted, he]
  · intro hm
    refine ⟨fun t e' he' b hb => ?_, h.2⟩
    by_cases ht : t = s.table
    · subst ht
      obtain rfl : ((w.buffer s.table).getD (.empty s.schema now)).insert p s = e' := by
        simpa [World.inserted] using he'
      rcases mem_append.mp hb with hb | hb
      · cases he : w.buffer s.table with
        | none =>
          rw [he] at hb
          exact absurd hb not_mem_nil
        | some e =>
          rw [he] at hb
          rcases hm e he with hnil | hsame
          · exact absurd (hnil ▸ hb) not_mem_nil
          · exact (h.1 s.table e he b hb).trans hsame
      · exact hok.1 b hb
    · exact h.1 t e' (by simpa [World.inserted, update_of_ne ht] using he') b hb

theorem Uniform.take (h : Uniform w) {f now : ℕ} {fl : Flush S} : Uniform (w.take f now fl) := by
  have hdone : Uniform (w.mark [f] .finished) := by
    refine ⟨h.1, fun g fl' tk hg htk => ?_⟩
    obtain ⟨fl₀, hfl₀, hsame, -⟩ := mark_flushes hg
    exact h.2 g fl₀ tk hfl₀ (hsame ▸ htk)
  simp only [World.take]
  split
  · rename_i e he
    split
    · exact hdone
    · refine ⟨fun t e' he' b hb => ?_, fun g fl' tk hg htk => ?_⟩
      · by_cases ht : t = fl.table
        · subst ht
          obtain rfl : e.emptied now = e' := by simpa [World.took] using he'
          exact absurd hb not_mem_nil
        · exact h.1 t e' (by simpa [World.took, update_of_ne ht] using he') b hb
      · by_cases hgf : g = f
        · subst hgf
          obtain rfl : { fl with status := .taken, taken := some e.take } = fl' := by
            simpa [World.took] using hg
          obtain rfl : e.take = tk := Option.some.inj htk
          exact h.1 fl.table e he
        · exact h.2 g fl' tk (by simpa [World.took, update_of_ne hgf] using hg) htk
  · exact hdone

theorem Requests.inserted (h : Requests w) {p : ℕ} {s : Submit S} {e : Entry S}
    (hs : w.submits p = some s) : Requests (w.inserted p s e) := by
  intro q s' hs'
  by_cases hqp : q = p
  · subst hqp
    obtain rfl : { s with phase := .waiting } = s' := by
      simpa [World.inserted, World.setSubmit] using hs'
    exact ⟨(h q s hs).1, fun heq => by cases heq⟩
  · exact h q s' (by simpa [World.inserted, World.setSubmit, update_of_ne hqp] using hs')

theorem Requests.take (h : Requests w) {f now : ℕ} {fl : Flush S} : Requests (w.take f now fl) := by
  simp only [World.take]
  split
  · split
    · exact h
    · exact h
  · exact h

end Schemas

/-! ### What a step does to the entries -/

/-- **Every step**: a quiet one, an insertion, the lock of a flush, or one of the shutdown's. -/
inductive Effect (w : World S) : Action S → World S → Prop where
  | quiet {a : Action S} {w' : World S} (hq : Quiet w w') : Effect w a w'
  | insert {p f now : ℕ} {s : Submit S} {w' : World S} (hs : w.submits p = some s)
      (hq : Quiet (w.inserted p s (((w.buffer s.table).getD (.empty s.schema now)).insert p s)) w') :
      Effect w (.insert p f now) w'
  | take {f now : ℕ} {fl : Flush S} (hf : w.flushes f = some fl) (hst : fl.status = .starting) :
      Effect w (.take f now) (w.take f now fl)
  | drainList (hd : w.drain = .notStarted) : Effect w .drainList { w with drain := .flushing w.nonempty none }
  | drainFlush {f : ℕ} {t : TableId} {rest : List TableId} (hd : w.drain = .flushing (t :: rest) none)
      (hf : w.flushes f = none) :
      Effect w (.drainFlush f) { w.spawn f t with drain := .flushing rest (some f) }
  | drainNext {f : ℕ} {rest : List TableId} (hd : w.drain = .flushing rest (some f))
      (hf : (w.flushes f).map Flush.status = some .finished) :
      Effect w .drainNext { w with drain := .flushing rest none }
  | drainEnd (hd : w.drain = .flushing [] none) : Effect w .drainNext { w with drain := .complete }

section Effects

variable [DecidableEq S] {cfg : Config} {w w' : World S} {a : Action S}

theorem step_effect (h : Inv w) (hstep : step cfg w a = some w') : Effect w a w' := by
  by_cases ha : a.quiet = true
  · exact .quiet (quiet_step h ha hstep)
  cases a with
  | insert p f now =>
    obtain ⟨s, hs, hrest⟩ := Option.bind_eq_some_iff.mp hstep
    obtain ⟨-, hw⟩ := Option.ite_none_right_eq_some.mp hrest
    exact .insert hs (quiet_insert hw)
  | take f now =>
    obtain ⟨fl, hf, hrest⟩ := Option.bind_eq_some_iff.mp hstep
    obtain ⟨hst, hw⟩ := Option.ite_none_right_eq_some.mp hrest
    cases hw
    exact .take hf hst
  | drainList =>
    simp only [step] at hstep
    split at hstep
    · rename_i hd
      cases hstep
      exact .drainList hd
    · cases hstep
  | drainFlush f =>
    simp only [step] at hstep
    split at hstep
    · rename_i t rest hd
      obtain ⟨hnone, hw⟩ := Option.ite_none_right_eq_some.mp hstep
      cases hw
      exact .drainFlush hd hnone
    · cases hstep
  | drainNext =>
    simp only [step] at hstep
    split at hstep
    · rename_i rest f hd
      obtain ⟨hfin, hw⟩ := Option.ite_none_right_eq_some.mp hstep
      cases hw
      exact .drainNext hd hfin
    · rename_i hd
      cases hstep
      exact .drainEnd hd
    · cases hstep
  | _ => exact absurd rfl ha

theorem requests_step (h : Inv w) (hr : Requests w) (hstep : step cfg w a = some w') : Requests w' := by
  cases step_effect h hstep with
  | quiet hq => exact hq.requests hr
  | insert hs hq => exact hq.requests (hr.inserted hs)
  | take hf hst => exact hr.take
  | drainList hd | drainFlush hd hf | drainNext hd hf | drainEnd hd => exact hr

theorem uniform_step (h : Inv w) (hr : Requests w) (hu : Uniform w) (hok : Orderly w a)
    (hstep : step cfg w a = some w') : Uniform w' := by
  cases step_effect h hstep with
  | quiet hq => exact hu.quiet hq
  | insert hs hq =>
    refine Uniform.quiet ?_ hq
    exact (uniform_inserted_iff hu _ _ (hr _ _ hs)).mpr (hok.insert hs).1
  | take hf hst => exact hu.take
  | drainList hd => exact hu
  | drainFlush hd hf =>
    rename_i f t rest
    have hspawn : Uniform (w.spawn f t) := hu.quiet (.spawn hf t)
    exact hspawn
  | drainNext hd hf | drainEnd hd => exact hu

end Effects

/-! ### The shutdown -/

def Remaining (w : World S) : Prop := ∀ t e, w.buffer t = some e → e.batches ≠ [] → w.drains t = true

section Shutdown

variable {w w' : World S}

theorem drains_of_drains {t : TableId} (h : w.drains t = true) (hd : w'.drain = w.drain)
    (hfl : ∀ f fl, w.flushes f = some fl → fl.status = .starting → fl.table = t →
      w'.flushes f = some fl) : w'.drains t = true := by
  unfold World.drains at h ⊢
  rw [hd]
  cases hdrain : w.drain with
  | notStarted => rfl
  | complete => simp [hdrain] at h
  | flushing rest current =>
    simp only [hdrain, Bool.or_eq_true] at h ⊢
    rcases h with h | h
    · exact .inl h
    · refine .inr ?_
      obtain ⟨fl, hcur, hboth⟩ := (Option.any_eq_true _ _).mp h
      obtain ⟨f, rfl, hf⟩ := Option.bind_eq_some_iff.mp hcur
      obtain ⟨hst, ht⟩ : fl.status = .starting ∧ fl.table = t := by simpa using hboth
      simp [hfl f fl hf hst ht, hst, ht]

theorem Remaining.quiet (h : Remaining w) (hq : Quiet w w') : Remaining w' := by
  intro t e he hne
  refine drains_of_drains (h t e (hq.buffer ▸ he) hne) hq.drain fun f fl hf hst _ => ?_
  exact hq.starting f fl hf hst

theorem Remaining.inserted (h : Remaining w) {p : ℕ} {s : Submit S} {e : Entry S}
    (hd : w.drains s.table = true) : Remaining (w.inserted p s e) := by
  intro t e' he' hne
  refine drains_of_drains (w := w) ?_ rfl fun f fl hf _ _ => hf
  by_cases ht : t = s.table
  · rwa [ht]
  · exact h t e' (by simpa [World.inserted, update_of_ne ht] using he') hne

theorem Remaining.take (h : Remaining w) {f now : ℕ} {fl : Flush S} (hf : w.flushes f = some fl) :
    Remaining (w.take f now fl) := by
  -- the entries of other tables, and the flushes that wait for them, are as before
  have hother : ∀ t e, t ≠ fl.table → w.buffer t = some e → e.batches ≠ [] → (w.take f now fl).drain = w.drain →
      (∀ g, g ≠ f → (w.take f now fl).flushes g = w.flushes g) → (w.take f now fl).drains t = true := by
    intro t e ht he hne hd hfl
    refine drains_of_drains (h t e he hne) hd fun g gl hg _ hgt => ?_
    have hgf : g ≠ f := by
      rintro rfl
      obtain rfl : fl = gl := by simpa [hf] using hg
      exact ht hgt.symm
    rwa [hfl g hgf]
  have hmark : ∀ g, g ≠ f → (w.mark [f] .finished).flushes g = w.flushes g := by
    intro g hg
    simp [World.mark, hg]
  intro t e' he' hne
  cases he : w.buffer fl.table with
  | none =>
    have heq : w.take f now fl = w.mark [f] .finished := by simp [World.take, he]
    rw [heq] at hother he' ⊢
    refine hother t e' (fun ht => ?_) he' hne rfl hmark
    have hnone : w.buffer t = none := ht ▸ he
    cases hnone.symm.trans he'
  | some e =>
    by_cases hempty : e.batches = []
    · have heq : w.take f now fl = w.mark [f] .finished := by simp [World.take, he, hempty]
      rw [heq] at hother he' ⊢
      refine hother t e' (fun ht => hne ?_) he' hne rfl hmark
      have hsome : w.buffer t = some e := ht ▸ he
      cases hsome.symm.trans he'
      exact hempty
    · have heq : w.take f now fl = w.took f now fl e := by simp [World.take, he, hempty]
      rw [heq] at hother he' ⊢
      by_cases ht : t = fl.table
      · subst ht
        obtain rfl : e.emptied now = e' := by simpa [World.took] using he'
        exact absurd rfl hne
      · refine hother t e' ht (by simpa [World.took, update_of_ne ht] using he') hne rfl ?_
        exact fun g hg => update_of_ne hg ..

theorem Remaining.drained (h : Remaining w) : Drained w := by
  intro hd t e he
  by_contra hne
  have hdrains := h t e he hne
  simp [World.drains, hd] at hdrains

theorem mem_nonempty (h : Inv w) {t : TableId} {e : Entry S} (he : w.buffer t = some e)
    (hne : e.batches ≠ []) : t ∈ w.nonempty := by
  refine mem_filter.mpr ⟨(h.entry t e he).1, ?_⟩
  simpa [he] using hne

variable [DecidableEq S] {cfg : Config} {a : Action S}

theorem remaining_step (h : Inv w) (hrem : Remaining w) (hok : Orderly w a)
    (hstep : step cfg w a = some w') : Remaining w' := by
  cases step_effect h hstep with
  | quiet hq => exact hrem.quiet hq
  | insert hs hq => exact (hrem.inserted (hok.insert hs).2).quiet hq
  | take hf hst => exact hrem.take hf
  | drainList hd =>
    intro t e he hne
    simpa [World.drains] using mem_nonempty h he hne
  | drainFlush hd hf =>
    rename_i f t rest
    intro t' e he hne
    have hdrains := hrem t' e he hne
    simp only [World.drains, hd] at hdrains
    -- the table is on the rest of the list, or it is the one whose flush starts now
    rcases eq_or_ne t' t with rfl | htt
    · simp [World.drains, World.spawn]
    · have hmem : t' ∈ rest := by simpa [htt] using hdrains
      simp [World.drains, hmem]
  | drainNext hd hf =>
    rename_i f rest
    intro t e he hne
    have hdrains := hrem t e he hne
    obtain ⟨fl, hfl, hst⟩ := Option.map_eq_some_iff.mp hf
    simpa [World.drains, hd, hfl, hst] using hdrains
  | drainEnd hd =>
    intro t e he hne
    have hdrains := hrem t e he hne
    simp [World.drains, hd] at hdrains

end Shutdown

section Safety

variable [DecidableEq S] {cfg : Config} {w w' : World S}

end Safety

/-! ### Two races -/

def roomy : Config :=
  { flushMaxRows := 8000, flushMaxBytes := 16777216, flushMaxAge := 50, coordinator := none }

/-- Two producers on one table: the second has read the table after its schema has changed.  The
entry of the first is flushed before the second inserts, and the shutdown flushes the rest. -/
def orderlyActions : List (Action ℕ) :=
  [.submit 0 7 1 [(10, 100)], .check 0 0, .insert 0 0 0, .submit 1 7 2 [(20, 200)], .check 1 0,
    .take 0 1, .write 0, .commitDirect 0 .ok, .wake 0, .resume 1, .insert 1 1 2, .drainList,
    .drainFlush 1, .take 1 3, .write 1, .commitDirect 1 .ok, .wake 1, .drainNext, .drainNext]

def schemaRace : List (Action ℕ) :=
  [.submit 0 7 1 [(10, 100)], .submit 1 7 2 [(20, 200)], .check 0 0, .check 1 0, .insert 0 0 0, .insert 1 0 1]

def lateInsertion : List (Action ℕ) := [.submit 0 7 1 [(10, 100)], .check 0 0, .drainList, .drainNext, .insert 0 0 0]

end Staging
