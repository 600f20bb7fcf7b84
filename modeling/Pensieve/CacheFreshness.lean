/-
**When reads through the cache are fresh.**

A write evicts what is cached for its path before it returns, so what is in the cache then is gone.
But a read that missed carries a result it fetched earlier, and inserts it when it comes to the
lock.
-/

import Pensieve.ObjectCache

namespace ObjectCache

open Function
open List

variable {M A E : Type} [Inhabited A] {store : InnerStore M A E} {maxObject : Nat}
  {s s' : St M A E} {exact : Prop}

/-! ### The condition -/

/-- The writes of `before` to the path are among the first `n`. -/
def Precede (path : Path) (before : List Returned) (n : Nat) : Prop := ∀ w ∈ before, w.path = path → w.index < n

instance (path : Path) (before : List Returned) (n : Nat) : Decidable (Precede path before n) :=
  inferInstanceAs (Decidable (∀ w ∈ before, w.path = path → w.index < n))

/-- **The condition on a run.**  When a read inserts its result, every write to the path that has
returned took effect before the result was fetched. -/
def NotOvertaken (s : St M A E) : Action M A → Prop
  | .insert i => ∀ path read rk before moment result, s.procs i = some (.inserting path read rk before moment result) →
        Precede path s.returned moment
  | _ => True

/-! ### Results of a moment -/

/-- `result` is the inner store's answer at a moment, which with `exact` is after the writes of `before`. -/
def Seen (exact : Prop) (store : InnerStore M A E) (log : List (Path × Option (Stored M A))) (path : Path)
    (read : Read) (before : List Returned) (result : Except E (GetResult M A)) : Prop :=
  ∃ n, n ≤ log.length ∧ (exact → Precede path before n) ∧ store.read read (WriteLog.contents path (log.take n)) = result

section Seen

variable {log : List (Path × Option (Stored M A))} {path : Path} {read : Read}
  {before before' : List Returned} {result : Except E (GetResult M A)}

theorem Seen.append (h : Seen exact store log path read before result) (more : List (Path × Option (Stored M A))) :
    Seen exact store (log ++ more) path read before result := by
  obtain ⟨n, hn, hb, hr⟩ := h
  refine ⟨n, ?_, hb, ?_⟩
  · rw [length_append]
    omega
  · rw [WriteLog.contents_take_append path hn]
    exact hr

theorem Seen.now (hlt : ∀ w ∈ before, w.index < log.length) :
    Seen exact store log path read before (store.read read (WriteLog.contents path log)) := by
  refine ⟨log.length, Nat.le_refl _, fun _ w hw _ => hlt w hw, ?_⟩
  rw [take_length]

end Seen

/-! ### The invariant -/

def Proc.Ok (store : InnerStore M A E) (s : St M A E) : Proc M A E → Prop
  | .fetching _ _ before => before ⊆ s.returned
  | .inserting path read rk before moment result =>
    read.key = some rk ∧ before ⊆ s.returned ∧ moment ≤ s.log.length ∧ Precede path before moment ∧
      store.read read (WriteLog.contents path (s.log.take moment)) = .ok result
  | .evicting path index => ∀ n ∈ index, ∃ c, s.log[n]? = some (path, c)

/-- **The invariant.**  The index of the cache is complete; returned writes are in the log; cached
results are from a moment after all writes to the path that have returned; and answers are from a
moment after those that had returned when the read started. -/
structure Inv (exact : Prop) (store : InnerStore M A E) (s : St M A E) : Prop where
  indexed : s.lru.Indexed
  logged : ∀ w ∈ s.returned, ∃ c, s.log[w.index]? = some (w.path, c)
  cached : ∀ path rk e, s.lru.map.lookup (path, rk) = some e → Seen exact store s.log path rk.read s.returned (.ok e.result)
  procs : ∀ i p, s.procs i = some p → p.Ok store s
  answered : ∀ a ∈ s.answers, a.before ⊆ s.returned ∧ ∀ result ∈ a.result, Seen exact store s.log a.path a.read a.before result

theorem inv_init (log : List (Path × Option (Stored M A))) (maxTotal : Nat) : Inv exact store (St.init log maxTotal) where
  indexed := Lru.indexed_new _
  logged := by simp [St.init]
  cached path rk e h := by cases h
  procs i p h := by cases h
  answered := by simp [St.init]

theorem Inv.index_lt (h : Inv exact store s) {w : Returned} (hw : w ∈ s.returned) : w.index < s.log.length := by
  obtain ⟨c, hc⟩ := h.logged w hw
  exact (List.getElem?_eq_some_iff.mp hc).1

theorem Inv.procs_update (h : Inv exact store s) {i : Nat} {p : Option (Proc M A E)}
    (hp : ∀ q ∈ p, q.Ok store s) : ∀ j q, Function.update s.procs i p j = some q → q.Ok store s := by
  intro j q hq
  by_cases hj : j = i
  · subst hj
    rw [update_self] at hq
    exact hp q hq
  · rw [update_of_ne hj] at hq
    exact h.procs j q hq

theorem Proc.Ok.later {p : Proc M A E} (h : p.Ok store s)
    {more : List (Path × Option (Stored M A))} (hlog : s'.log = s.log ++ more)
    (hret : s.returned ⊆ s'.returned) : p.Ok store s' := by
  cases p with
  | fetching path read before => exact fun w hw => hret (h hw)
  | inserting path read rk before moment result =>
    obtain ⟨hk, hb, hm, hpre, hr⟩ := h
    refine ⟨hk, fun w hw => hret (hb hw), ?_, hpre, ?_⟩
    · rw [hlog, length_append]
      omega
    · rw [hlog, WriteLog.contents_take_append path hm]
      exact hr
  | evicting path index =>
    intro n hn
    obtain ⟨c, hc⟩ := h n hn
    refine ⟨c, ?_⟩
    rw [hlog, getElem?_append_left (List.getElem?_eq_some_iff.mp hc).1]
    exact hc

theorem Inv.answers_concat (h : Inv exact store s) {a : Answer M A E} (hb : a.before ⊆ s.returned)
    (ha : ∀ result ∈ a.result, Seen exact store s.log a.path a.read a.before result) :
    ∀ x ∈ s.answers ++ [a], x.before ⊆ s.returned ∧
      ∀ result ∈ x.result, Seen exact store s.log x.path x.read x.before result := by
  intro x hx
  rcases mem_append.mp hx with hx | hx
  · exact h.answered x hx
  · rw [mem_singleton.mp hx]
    exact ⟨hb, ha⟩

/-! ### The steps -/

theorem Inv.cached_get (h : Inv exact store s) (key : Key) : ∀ path rk e, (s.lru.get key).2.map.lookup (path, rk) = some e →
      Seen exact store s.log path rk.read s.returned (.ok e.result) := by
  intro path rk e he
  obtain ⟨e₀, he₀, hres⟩ := Lru.lookup_get he
  rw [← hres]
  exact h.cached path rk e₀ he₀

theorem Inv.lookupStep (h : Inv exact store s) (i : Nat) (path : Path) (read : Read) :
    Inv exact store (lookupStep s i path read) := by
  have hfetching : ∀ q ∈ some (Proc.fetching path read s.returned : Proc M A E), q.Ok store s := by
    rintro q ⟨⟩
    exact List.Subset.refl _
  unfold ObjectCache.lookupStep
  cases hk : read.key with
  | none =>
    exact { h with procs := fun j q hq => h.procs_update hfetching j q hq }
  | some rk =>
    simp only
    cases hhit : (s.lru.get (path, rk)).1 with
    | none =>
      exact { indexed := Lru.indexed_get h.indexed _
              logged := h.logged
              cached := h.cached_get _
              procs := fun j q hq => h.procs_update hfetching j q hq
              answered := h.answered }
    | some e =>
      -- a hit: the entry was cached, so it is from a moment after the returned writes
      obtain ⟨e₀, he₀, hres⟩ := Lru.get_eq_some hhit
      have hseen := h.cached path rk e₀ he₀
      rw [hres, ← Read.eq_of_key hk] at hseen
      exact { indexed := Lru.indexed_get h.indexed _
              logged := h.logged
              cached := h.cached_get _
              procs := h.procs
              answered := h.answers_concat (List.Subset.refl _) (by rintro _ ⟨⟩; exact hseen) }

theorem Inv.fetchStep (h : Inv exact store s) (i : Nat) {path : Path} {read : Read}
    {before : List Returned} (hb : before ⊆ s.returned) (storeFails : Bool) :
    Inv exact store (fetchStep store maxObject s i path read before storeFails) := by
  have hlt : ∀ w ∈ before, w.index < s.log.length := fun w hw => h.index_lt (hb hw)
  have hdone : ∀ q ∈ (none : Option (Proc M A E)), q.Ok store s := by
    rintro q ⟨⟩
  -- an answer with what the inner store says now
  have hanswer : ∀ result : Option (Except E (GetResult M A)),
      (∀ r ∈ result, store.read read (WriteLog.contents path s.log) = r) →
      Inv exact store { s with
        procs := Function.update s.procs i none
        answers := s.answers ++ [⟨path, read, before, result⟩] } := fun result hr =>
    { h with
      procs := fun j q hq => h.procs_update hdone j q hq
      answered := h.answers_concat hb (fun r hmem => by rw [← hr r hmem]; exact Seen.now hlt) }
  unfold ObjectCache.fetchStep
  simp only
  split
  · exact hanswer none (by rintro _ ⟨⟩)
  · split
    · rename_i e hread
      exact hanswer _ (by rintro _ ⟨⟩; exact hread)
    · rename_i result hread _
      exact hanswer _ (by rintro _ ⟨⟩; exact hread)
    · rename_i result rk hread hk
      split
      · refine { h with procs := fun j q hq => h.procs_update ?_ j q hq }
        rintro q ⟨⟩
        refine ⟨hk, hb, Nat.le_refl _, fun w hw _ => hlt w hw, ?_⟩
        rw [take_length]
        exact hread
      · exact hanswer _ (by rintro _ ⟨⟩; exact hread)

/-- **An insertion that is not overtaken** caches a result that is from a moment after all writes to
the path that have returned. -/
theorem Inv.insertStep (h : Inv exact store s) {i : Nat} {path : Path} {read : Read} {rk : RangeKey}
    {before : List Returned} {moment : Nat} {result : GetResult M A}
    (hproc : s.procs i = some (.inserting path read rk before moment result)) (hpre : exact → Precede path s.returned moment) :
    Inv exact store (insertStep s i path read rk before result) := by
  obtain ⟨hk, hb, hm, hpre', hr⟩ := h.procs i _ hproc
  refine ⟨Lru.indexed_insert h.indexed _ _, h.logged, fun p k e he => ?_, fun j q hq => ?_, ?_⟩
  · rcases Lru.lookup_insert_cases he with ⟨heq, hres⟩ | hold
    · cases heq
      rw [hres, ← Read.eq_of_key hk]
      exact ⟨moment, hm, hpre, hr⟩
    · exact h.cached p k e hold
  · exact h.procs_update (by rintro _ ⟨⟩) j q hq
  · refine h.answers_concat hb ?_
    rintro _ ⟨⟩
    exact ⟨moment, hm, fun _ => hpre', hr⟩

theorem Inv.writeStep (h : Inv exact store s) (i : Nat) (w : Write M A) (o : Outcome) : Inv exact store (writeStep s i w o) := by
  unfold ObjectCache.writeStep
  simp only
  generalize happ : (if o = .failed then none else w.content s.log) = applied
  have hsub : s.returned ⊆ s.returned := List.Subset.refl _
  refine ⟨h.indexed, fun x hx => ?_, fun p k e he => (h.cached p k e he).append _,
    fun j q hq => ?_, fun a ha => ⟨(h.answered a ha).1, fun r hr => ((h.answered a ha).2 r hr).append _⟩⟩
  · obtain ⟨c, hc⟩ := h.logged x hx
    refine ⟨c, ?_⟩
    rw [getElem?_append_left (h.index_lt hx)]
    exact hc
  · by_cases hev : w.evicts (o = .ok && applied.isSome)
    · simp only [hev, if_true] at hq
      by_cases hj : j = i
      · subst hj
        rw [update_self, Option.some.injEq] at hq
        subst hq
        -- the write is the last of the log
        rintro n hn
        cases applied with
        | none => cases hn
        | some c =>
          cases hn
          exact ⟨c, by simp⟩
      · rw [update_of_ne hj] at hq
        exact (h.procs j q hq).later rfl hsub
    · simp only [hev] at hq
      exact (h.procs j q hq).later rfl hsub

theorem Inv.evictStep (h : Inv exact store s) {i : Nat} {path : Path} {index : Option Nat}
    (hproc : s.procs i = some (.evicting path index)) : Inv exact store (evictStep s i path index) := by
  have hok := h.procs i _ hproc
  have hsub : s.returned ⊆ (index.map fun n => (⟨path, n⟩ : Returned)).toList ++ s.returned := subset_append_right _ _
  have hlog : s.log = s.log ++ [] := (append_nil _).symm
  refine ⟨Lru.indexed_evictPath h.indexed path, fun x hx => ?_, fun p k e he => ?_,
    fun j q hq => ?_, fun a ha => ⟨fun w hw => hsub ((h.answered a ha).1 hw), (h.answered a ha).2⟩⟩
  · rcases mem_append.mp hx with hx | hx
    · obtain ⟨n, hn, rfl⟩ := Option.map_eq_some_iff.mp (Option.mem_toList.mp hx)
      exact hok n hn
    · exact h.logged x hx
  · obtain ⟨hne, hold⟩ := Lru.lookup_evictPath h.indexed he
    obtain ⟨n, hn, hpre, hr⟩ := h.cached p k e hold
    refine ⟨n, hn, fun hexact w hw hwp => ?_, hr⟩
    rcases mem_append.mp hw with hw | hw
    · obtain ⟨m, -, rfl⟩ := Option.map_eq_some_iff.mp (Option.mem_toList.mp hw)
      exact absurd hwp.symm hne
    · exact hpre hexact w hw hwp
  · exact (h.procs_update (by rintro _ ⟨⟩) j q hq).later hlog hsub

theorem Inv.step {a : Action M A} (h : Inv exact store s) (ha : exact → NotOvertaken s a)
    (hs : step store maxObject s a = some s') : Inv exact store s' := by
  cases a with
  | lookup i path read =>
    simp only [ObjectCache.step] at hs
    split at hs
    · cases hs
      exact h.lookupStep i path read
    · cases hs
  | fetch i storeFails =>
    simp only [ObjectCache.step] at hs
    split at hs
    · rename_i path read before hproc
      cases hs
      exact h.fetchStep i (h.procs i _ hproc) storeFails
    · cases hs
  | insert i =>
    simp only [ObjectCache.step] at hs
    split at hs
    · rename_i path read rk before moment result hproc
      cases hs
      exact h.insertStep hproc fun hexact => ha hexact _ _ _ _ _ _ hproc
    · cases hs
  | write i w o =>
    simp only [ObjectCache.step] at hs
    split at hs
    · cases hs
      exact h.writeStep i w o
    · cases hs
  | evict i =>
    simp only [ObjectCache.step] at hs
    split at hs
    · rename_i path index hproc
      cases hs
      exact h.evictStep hproc
    · cases hs

theorem inv_of_reach {log : List (Path × Option (Stored M A))} {maxTotal : Nat}
    (h : Runs.Reach (step store maxObject) NotOvertaken (St.init log maxTotal) s) : Inv True store s :=
  h.inv (inv_init log maxTotal) fun _ _ _ hi ha hst => hi.step (fun _ => ha) hst

theorem Inv.answers (h : Inv True store s) : ∀ a ∈ s.answers, a.before ⊆ s.returned ∧ ∀ result ∈ a.result,
    ∃ n, n ≤ s.log.length ∧ Precede a.path a.before n ∧
      store.read a.read (WriteLog.contents a.path (s.log.take n)) = result := by
  refine fun a ha => ⟨(h.answered a ha).1, fun result hres => ?_⟩
  obtain ⟨n, hn, hpre, hread⟩ := (h.answered a ha).2 result hres
  exact ⟨n, hn, hpre trivial, hread⟩

/-! ### Fresh reads -/

theorem InnerStore.read_none (store : InnerStore M A E) (r : Read) : ∃ e, store.read r none = .error e := by
  cases r with
  | get options => exact store.get_none options
  | head =>
    obtain ⟨e, he⟩ := store.head_none
    exact ⟨e, by simp [InnerStore.read, he, Except.map]⟩

/-- **All reads so far were fresh.**  Take a read that the inner store did not fail on, and a write
to its path that had returned when the read started.  The read gave what that write or a later one
has written; and if the write was a deletion and no write to the path came later, the read found
nothing. -/
def Fresh (store : InnerStore M A E) (s : St M A E) : Prop :=
  ∀ a ∈ s.answers, ∀ result ∈ a.result, ∀ w ∈ a.before, w.path = a.path →
    (∃ k c, w.index ≤ k ∧ s.log[k]? = some (a.path, c) ∧ result = store.read a.read c) ∧
    (s.log[w.index]? = some (a.path, none) →
      (∀ k c, w.index < k → s.log[k]? ≠ some (a.path, c)) → ∃ e, result = .error e)

/-- **Reads are fresh in every run in which no insertion is overtaken.** -/
theorem reads_fresh_of_notOvertaken (store : InnerStore M A E) (maxObject maxTotal : Nat)
    (log : List (Path × Option (Stored M A)))
    (h : Runs.Reach (step store maxObject) NotOvertaken (St.init log maxTotal) s) : Fresh store s := by
  intro a ha result hres w hw hpath
  have hi := inv_of_reach h
  obtain ⟨hsub, hall⟩ := hi.answers a ha
  obtain ⟨n, hn, hpre, hread⟩ := hall result hres
  obtain ⟨c, hc⟩ := hi.logged w (hsub hw)
  rw [hpath] at hc
  obtain ⟨k, hwk, hkn, hk⟩ := WriteLog.exists_write_of_lt hc (hpre w hw hpath) hn
  refine ⟨⟨k, _, hwk, hk, hread.symm⟩, fun hdel hlater => ?_⟩
  -- the write that the read saw is not later than the deletion, so it is the deletion
  obtain rfl : k = w.index := by
    by_contra hne
    exact hlater k _ (by omega) hk
  rw [hdel, Option.some.injEq, Prod.mk.injEq] at hk
  rw [← hk.2] at hread
  obtain ⟨e, he⟩ := store.read_none a.read
  exact ⟨e, hread.symm.trans he⟩

/-! ### An overtaken insertion -/

def rangeOf (len : Nat) : Option GetRange → Option (Nat × Nat)
  | none => some (0, len)
  | some (.bounded start stop) =>
    if start < stop ∧ start < len then some (start, min stop len) else none
  | some (.offset start) => if start < len then some (start, len) else none
  | some (.suffix n) => some (len - n, len)

def memoryStore : InnerStore Nat Unit String where
  get options c :=
    match c with
    | none => .error "not found"
    | some o =>
      match rangeOf o.bytes.length options.range with
      | none => .error "invalid range"
      | some (start, stop) =>
        .ok ⟨(o.bytes.drop start).take (stop - start), o.metadata, o.attributes, (start, stop)⟩
  head c :=
    match c with
    | none => .error "not found"
    | some o => .ok o.metadata
  get_none _ := ⟨"not found", rfl⟩
  head_none := ⟨"not found", rfl⟩

def jobLog (bytes : Bytes) : Stored Nat Unit := ⟨bytes, bytes.length, ()⟩

def getAll : Read := RangeKey.full.read

/-- Reader 1 misses and fetches the old log; writer 2 replaces the log and returns; reader 1 then
inserts what it has fetched, and reader 3 starts. -/
def overtaken : List (Action Nat Unit) :=
  [.lookup 1 "ci.log" getAll, .fetch 1 false, .write 2 (.put "ci.log" (jobLog [2, 2])) .ok, .evict 2,
   .insert 1, .lookup 3 "ci.log" getAll]

def oldLog : List (Path × Option (Stored Nat Unit)) := [("ci.log", some (jobLog [1]))]

/-- **The cache serves the old object after the put has returned.**  The read of caller 3 starts when
the put, the second write, has returned, and gives the bytes of the first write. -/
theorem overtaken_insert_serves_old_object :
    ∃ s, Runs.Reach (step memoryStore 4096) Runs.Free (St.init oldLog 100000) s ∧
      s.log = [("ci.log", some (jobLog [1])), ("ci.log", some (jobLog [2, 2]))] ∧
      ⟨"ci.log", getAll, [⟨"ci.log", 1⟩], some (.ok ⟨[1], 1, (), (0, 1)⟩)⟩ ∈ s.answers ∧ ¬Fresh memoryStore s := by
  refine ⟨_, Runs.reach_of_run (show Runs.run (step memoryStore 4096) Runs.Free
    (St.init oldLog 100000) overtaken = some _ from rfl), rfl, ?_, fun hfresh => ?_⟩
  · exact .tail _ (.head _)
  · -- from the put on there is one write, and its bytes are others
    obtain ⟨⟨k, c, hk, hlog, hread⟩, -⟩ := hfresh _ (.tail _ (.head _)) _ rfl ⟨"ci.log", 1⟩ (.head _) rfl
    have hlog' : [("ci.log", some (jobLog [1])), ("ci.log", some (jobLog [2, 2]))][k]? =
        some ("ci.log", c) := hlog
    match k with
    | 0 => simp at hk
    | 1 =>
      cases hlog'
      exact absurd hread (by decide)
    | k + 2 => simp at hlog'

/-- A read after the put finds the new log. -/
theorem reads_fresh_after_put :
    ∃ s, s.answers = [⟨"ci.log", getAll, [⟨"ci.log", 1⟩], some (.ok ⟨[2, 2], 2, (), (0, 2)⟩)⟩] ∧
      Fresh memoryStore s := by
  have hput : Runs.Reach (step memoryStore 4096) NotOvertaken (St.init oldLog 100000) _ :=
    .step (.evict 2) (.step (.write 2 (.put "ci.log" (jobLog [2, 2])) .ok) .init trivial rfl)
      trivial rfl
  have hread : Runs.Reach (step memoryStore 4096) NotOvertaken (St.init oldLog 100000) _ :=
    .step (.insert 3) (.step (.fetch 3 false) (.step (.lookup 3 "ci.log" getAll) hput trivial rfl)
      trivial rfl) (by rintro _ _ _ _ _ _ ⟨⟩; decide) rfl
  exact ⟨_, rfl, reads_fresh_of_notOvertaken memoryStore 4096 100000 oldLog hread⟩

/-- **Every read was right at some moment**, whatever insertion is overtaken: each answer, from the cache or not and of whatever
range, is the inner store's answer after some number of the writes. -/
theorem reads_of_a_moment (store : InnerStore M A E) (maxObject maxTotal : Nat) (log : List (Path × Option (Stored M A)))
    (h : Runs.Reach (step store maxObject) Runs.Free (St.init log maxTotal) s) : ∀ a ∈ s.answers, ∀ result ∈ a.result,
      ∃ n ≤ s.log.length, store.read a.read (WriteLog.contents a.path (s.log.take n)) = result := by
  have hinv : Inv False store s := h.inv (inv_init log maxTotal) fun _ _ _ hi _ hst => hi.step False.elim hst
  intro a ha result hres
  obtain ⟨n, hn, -, hread⟩ := (hinv.answered a ha).2 result hres
  exact ⟨n, hn, hread⟩

theorem reads_of_a_moment_overtaken : ∃ s : St Nat Unit String, s.answers ≠ [] ∧ ∀ a ∈ s.answers, ∀ result ∈ a.result,
    ∃ n ≤ s.log.length, memoryStore.read a.read (WriteLog.contents a.path (s.log.take n)) = result :=
  ⟨_, List.cons_ne_nil _ _, reads_of_a_moment memoryStore 4096 100000 oldLog (Runs.reach_of_run
    (show Runs.run (step memoryStore 4096) Runs.Free (St.init oldLog 100000) overtaken = some _ from rfl))⟩

end ObjectCache
