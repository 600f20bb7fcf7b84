/-
**Breadth-first search over an arbitrary graph.**

A search keeps a map from the vertices it has seen to their depth, a first-in first-out queue of the
vertices still to be expanded, and an accumulator that is fed every newly seen vertex together with
its depth.
-/

import Mathlib.Tactic

namespace Bfs

open List

variable {V A : Type}

/-! ### Walks and distances -/

/-- `Walk R u n v`: there is a walk of exactly `n` edges of `R` from `u` to `v`. -/
inductive Walk (R : V → V → Prop) (u : V) : ℕ → V → Prop
  | nil : Walk R u 0 u
  | snoc {n : ℕ} {v w : V} : Walk R u n v → R v w → Walk R u (n + 1) w

/-- `d` is the length of a shortest walk from `u` to `v`. -/
def IsDist (R : V → V → Prop) (u v : V) (d : ℕ) : Prop := Walk R u d v ∧ ∀ n, Walk R u n v → d ≤ n

variable {v : V}

theorem IsDist.unique {R : V → V → Prop} {u : V} {d e : ℕ} (hd : IsDist R u v d)
    (he : IsDist R u v e) : d = e :=
  le_antisymm (hd.2 e he.1) (he.2 d hd.1)

theorem isDist_self (R : V → V → Prop) (u : V) : IsDist R u u 0 := ⟨Walk.nil, fun _ _ => Nat.zero_le _⟩

theorem Walk.mono {R S : V → V → Prop} {u : V} (h : ∀ v w, R v w → S v w) {n : ℕ}
    (hw : Walk R u n v) : Walk S u n v := by
  induction hw with
  | nil => exact Walk.nil
  | snoc _ hr ih => exact ih.snoc (h _ _ hr)

theorem Walk.trans {R : V → V → Prop} {u w : V} {n m : ℕ} (h : Walk R u n v) (h' : Walk R v m w) :
    Walk R u (n + m) w := by
  induction h' with
  | nil => exact h
  | snoc _ hr ih => exact ih.snoc hr

theorem Walk.reverse {R : V → V → Prop} {u : V} {n : ℕ} (h : Walk R u n v) : Walk (fun a b => R b a) v n u := by
  induction h with
  | nil => exact .nil
  | snoc _ hr ih =>
    have hlast : Walk (fun a b => R b a) _ 1 _ := Walk.nil.snoc hr
    exact Nat.add_comm _ 1 ▸ hlast.trans ih

theorem isDist_reverse {R : V → V → Prop} {u : V} {d : ℕ} : IsDist (fun a b => R b a) v u d ↔ IsDist R u v d :=
  ⟨fun h => ⟨h.1.reverse, fun n hn => h.2 n hn.reverse⟩, fun h => ⟨h.1.reverse, fun n hn => h.2 n hn.reverse⟩⟩

theorem exists_isDist {R : V → V → Prop} {u : V} {n : ℕ} (h : Walk R u n v) : ∃ d ≤ n, IsDist R u v d := by
  classical
  have hex : ∃ n, Walk R u n v := ⟨n, h⟩
  exact ⟨Nat.find hex, Nat.find_min' hex h, Nat.find_spec hex, fun _ hm => Nat.find_min' hex hm⟩

/-! ### One scan -/

structure State (V A : Type) where
  depth : V → Option ℕ
  queue : List V
  acc : A

variable [DecidableEq V]

/-- See the vertex `nb` from a vertex of depth `d`: a vertex seen before is left alone. -/
def discover (emit : V → ℕ → A → A) (d : ℕ) (st : State V A) (nb : V) : State V A :=
  match st.depth nb with
  | some _ => st
  | none =>
    { depth := Function.update st.depth nb (some (d + 1))
      queue := st.queue ++ [nb]
      acc := emit nb (d + 1) st.acc }

/-- Scan the successors of a vertex of depth `d`, in order. -/
def expand (emit : V → ℕ → A → A) (d : ℕ) (nbs : List V) (st : State V A) : State V A :=
  nbs.foldl (discover emit d) st

/-- The state after the vertices `new` have been seen from depth `d`. -/
def extend (emit : V → ℕ → A → A) (d : ℕ) (new : List V) (st : State V A) : State V A :=
  { depth := fun v => if v ∈ new then some (d + 1) else st.depth v
    queue := st.queue ++ new
    acc := new.foldl (fun a v => emit v (d + 1) a) st.acc }

/-- **What one scan does**: some duplicate-free list of fresh successors, containing all of them,
is appended to the queue. -/
theorem expand_eq (emit : V → ℕ → A → A) (d : ℕ) (nbs : List V) (st : State V A) :
    ∃ new : List V, new.Nodup ∧ (∀ v ∈ new, v ∈ nbs ∧ st.depth v = none) ∧
      (∀ v ∈ nbs, st.depth v = none → v ∈ new) ∧ expand emit d nbs st = extend emit d new st := by
  induction nbs generalizing st with
  | nil => exact ⟨[], by simp, by simp, by simp, by simp [expand, extend]⟩
  | cons x nbs ih =>
    cases hx : st.depth x with
    | some e =>
      obtain ⟨new, hnd, hsub, hall, heq⟩ := ih st
      refine ⟨new, hnd, fun v hv => ⟨mem_cons_of_mem _ (hsub v hv).1, (hsub v hv).2⟩, ?_, ?_⟩
      · intro v hv hnone
        rcases mem_cons.1 hv with rfl | hv
        · simp [hx] at hnone
        · exact hall v hv hnone
      · rw [← heq]
        simp [expand, discover, hx]
    | none =>
      obtain ⟨new, hnd, hsub, hall, heq⟩ := ih (discover emit d st x)
      have hdepth : ∀ v, (discover emit d st x).depth v = if v = x then some (d + 1) else st.depth v := by
        intro v
        simp [discover, hx, Function.update_apply]
      refine ⟨x :: new, ?_, ?_, ?_, ?_⟩
      · refine nodup_cons.2 ⟨fun hmem => ?_, hnd⟩
        have := (hsub x hmem).2
        simp [hdepth] at this
      · intro v hv
        rcases mem_cons.1 hv with rfl | hv
        · exact ⟨by simp, hx⟩
        · obtain ⟨hmem, hnone⟩ := hsub v hv
          rw [hdepth] at hnone
          split at hnone
          · simp at hnone
          · exact ⟨mem_cons_of_mem _ hmem, hnone⟩
      · intro v hv hnone
        rcases mem_cons.1 hv with rfl | hv
        · simp
        · by_cases hvx : v = x
          · simp [hvx]
          · refine mem_cons_of_mem _ (hall v hv ?_)
            rw [hdepth, if_neg hvx, hnone]
      · have hstep : expand emit d (x :: nbs) st = expand emit d nbs (discover emit d st x) := rfl
        rw [hstep, heq]
        simp only [extend, State.mk.injEq]
        refine ⟨?_, ?_, ?_⟩
        · funext v
          rw [hdepth]
          by_cases hvx : v = x <;> by_cases hvn : v ∈ new <;> simp [hvx, hvn]
        · simp [discover, hx]
        · simp [discover, hx]

theorem extend_depth (emit : V → ℕ → A → A) (d : ℕ) (new : List V) (st : State V A) (v : V) :
    (extend emit d new st).depth v = if v ∈ new then some (d + 1) else st.depth v := rfl

variable {st : State V A}

theorem extend_depth_of_some (emit : V → ℕ → A → A) {d : ℕ} {new : List V}
    (hnew : ∀ v ∈ new, st.depth v = none) {e : ℕ} (h : st.depth v = some e) :
    (extend emit d new st).depth v = some e := by
  have hv : v ∉ new := fun hmem => by simp [hnew v hmem] at h
  simp [extend, hv, h]

theorem extend_depth_cases {emit : V → ℕ → A → A} {d : ℕ} {new : List V} {st : State V A} {e : ℕ}
    (h : (extend emit d new st).depth v = some e) : (v ∈ new ∧ e = d + 1) ∨ (v ∉ new ∧ st.depth v = some e) := by
  by_cases hv : v ∈ new
  · exact Or.inl ⟨hv, by simpa [extend, hv, eq_comm] using h⟩
  · exact Or.inr ⟨hv, by simpa [extend, hv] using h⟩

/-! ### The queue invariant -/

/-- **The queue invariant.**  `P d` says that vertices of depth `d` are to be expanded. -/
structure Inv (R : V → V → Prop) (s : V) (P : ℕ → Prop) (st : State V A) : Prop where
  source : st.depth s = some 0
  walk : ∀ v d, st.depth v = some d → Walk R s d v
  queued : ∀ v ∈ st.queue, ∃ d, st.depth v = some d
  sorted : st.queue.Pairwise fun v w => ∀ d e, st.depth v = some d → st.depth w = some e → d ≤ e
  front : ∀ q ∈ st.queue.head?, ∀ v d e, st.depth q = some d → st.depth v = some e → e ≤ d + 1
  closed : ∀ v d, st.depth v = some d → v ∉ st.queue → P d → ∀ w, R v w → ∃ e ≤ d + 1, st.depth w = some e

/-- The state a search from `s` starts in. -/
def start (s : V) (a : A) : State V A :=
  { depth := Function.update (fun _ => none) s (some 0), queue := [s], acc := a }

theorem start_depth {s : V} {a : A} {d : ℕ} (h : (start s a).depth v = some d) : v = s ∧ d = 0 := by
  by_cases hv : v = s
  · subst hv
    exact ⟨rfl, by simpa [start, eq_comm] using h⟩
  · simp [start, Function.update_of_ne hv] at h

theorem inv_start (R : V → V → Prop) (s : V) (P : ℕ → Prop) (a : A) : Inv R s P (start s a) where
  source := by simp [start]
  walk v d h := by
    obtain ⟨rfl, rfl⟩ := start_depth h
    exact Walk.nil
  queued v hv := by
    have : v = s := by simpa [start] using hv
    exact ⟨0, by simp [start, this]⟩
  sorted := by simp [start]
  front q _ v d e _ he := by
    obtain ⟨-, rfl⟩ := start_depth he
    omega
  closed v d h hv := by
    obtain ⟨rfl, -⟩ := start_depth h
    simp [start] at hv

section Round

variable {R : V → V → Prop} {s : V} {P : ℕ → Prop} {st : State V A} {cur : V} {q : List V} {d : ℕ}

omit [DecidableEq V] in
theorem Inv.le_of_mem (h : Inv R s P st) (hq : st.queue = cur :: q) (hd : st.depth cur = some d)
    {v : V} (hv : v ∈ cur :: q) {e : ℕ} (he : st.depth v = some e) : d ≤ e := by
  rcases mem_cons.1 hv with rfl | hv
  · rw [hd] at he
    exact le_of_eq (Option.some_inj.1 he)
  · have hs := h.sorted
    rw [hq, pairwise_cons] at hs
    exact hs.1 v hv d e hd he

omit [DecidableEq V] in
theorem Inv.le_succ (h : Inv R s P st) (hq : st.queue = cur :: q) (hd : st.depth cur = some d)
    {v : V} {e : ℕ} (he : st.depth v = some e) : e ≤ d + 1 :=
  h.front cur (by simp [hq]) v d e hd he

omit [DecidableEq V] in
theorem Inv.drop (h : Inv R s P st) (hq : st.queue = cur :: q) (hd : st.depth cur = some d)
    (hP : ¬ P d) : Inv R s P { st with queue := q } where
  source := h.source
  walk := h.walk
  queued v hv := h.queued v (by simp [hq, show v ∈ q from hv])
  sorted := by
    have hs := h.sorted
    rw [hq, pairwise_cons] at hs
    exact hs.2
  front c hc v e f he hf := by
    have hcq : c ∈ q := mem_of_mem_head? hc
    have h₁ : d ≤ e := h.le_of_mem hq hd (mem_cons_of_mem _ hcq) he
    have h₂ : f ≤ d + 1 := h.le_succ hq hd hf
    omega
  closed v e he hv hPe w hw := by
    have hvcur : v ≠ cur := by
      rintro rfl
      have : e = d := by
        have he' : st.depth v = some e := he
        rw [hd] at he'
        exact (Option.some_inj.1 he').symm
      exact hP (this ▸ hPe)
    refine h.closed v e he ?_ hPe w hw
    rw [hq]
    exact fun hmem => (mem_cons.1 hmem).elim hvcur hv

theorem Inv.expand (h : Inv R s P st) (hq : st.queue = cur :: q) (hd : st.depth cur = some d)
    {nbs : List V} (hnbs : ∀ w, w ∈ nbs ↔ R cur w) (emit : V → ℕ → A → A) :
    Inv R s P (Bfs.expand emit d nbs { st with queue := q }) := by
  obtain ⟨new, -, hsub, hall, heq⟩ := expand_eq emit d nbs { st with queue := q }
  have hnone : ∀ v ∈ new, st.depth v = none := fun v hv => (hsub v hv).2
  have hold : ∀ {v e}, st.depth v = some e → (extend emit d new { st with queue := q }).depth v = some e :=
    fun hv => extend_depth_of_some emit hnone hv
  have hle : ∀ {v e}, (extend emit d new { st with queue := q }).depth v = some e → e ≤ d + 1 := by
    intro v e hv
    rcases extend_depth_cases hv with ⟨-, rfl⟩ | ⟨-, hv⟩
    · exact le_rfl
    · exact h.le_succ hq hd hv
  -- the vertices still queued are not fresh, so their depths are the old ones
  have hqold : ∀ v ∈ q, ∀ e, (extend emit d new { st with queue := q }).depth v = some e → st.depth v = some e := by
    intro v hv e he
    obtain ⟨e', he'⟩ := h.queued v (by simp [hq, hv])
    have := hold he'
    rw [he] at this
    rw [he', Option.some_inj.1 this]
  rw [heq]
  refine ⟨hold h.source, ?_, ?_, ?_, ?_, ?_⟩
  · intro v e he
    rcases extend_depth_cases he with ⟨hv, rfl⟩ | ⟨-, hv⟩
    · exact (h.walk cur d hd).snoc ((hnbs v).1 (hsub v hv).1)
    · exact h.walk v e hv
  · intro v hv
    rcases mem_append.1 hv with hv | hv
    · obtain ⟨e, he⟩ := h.queued v (by simp [hq, show v ∈ q from hv])
      exact ⟨e, hold he⟩
    · exact ⟨d + 1, by simp [extend, hv]⟩
  · refine pairwise_append.2 ⟨?_, ?_, ?_⟩
    · have hs := h.sorted
      rw [hq, pairwise_cons] at hs
      refine List.Pairwise.imp_of_mem ?_ hs.2
      intro v w hv hw hvw e f he hf
      exact hvw e f (hqold v hv e he) (hqold w hw f hf)
    · refine pairwise_of_forall_mem_list ?_
      intro v hv w hw e f he hf
      simp only [extend, hv, if_true, Option.some.injEq] at he
      simp only [extend, hw, if_true, Option.some.injEq] at hf
      omega
    · intro v hv w hw e f he hf
      simp only [extend, hw, if_true, Option.some.injEq] at hf
      rw [← hf]
      exact h.le_succ hq hd (hqold v hv e he)
  · intro c hc v e f he hf
    have hf' : f ≤ d + 1 := hle hf
    suffices d ≤ e by omega
    rcases extend_depth_cases he with ⟨-, rfl⟩ | ⟨hcn, hce⟩
    · omega
    · have hcq : c ∈ q := (mem_append.1 (mem_of_mem_head? hc)).resolve_right hcn
      exact h.le_of_mem hq hd (mem_cons_of_mem _ hcq) hce
  · intro v e he hv hPe w hw
    have hvn : v ∉ new := fun hmem => hv (mem_append_right _ hmem)
    have hvq : v ∉ q := fun hmem => hv (mem_append_left _ hmem)
    have hve : st.depth v = some e := ((extend_depth_cases he).resolve_left fun h => hvn h.1).2
    by_cases hvcur : v = cur
    · -- the vertex just expanded: each successor was seen before or is fresh
      subst hvcur
      obtain rfl : d = e := Option.some_inj.1 (hd.symm.trans hve)
      have hwn : w ∈ nbs := (hnbs w).2 hw
      cases hwd : st.depth w with
      | some f => exact ⟨f, h.le_succ hq hd hwd, hold hwd⟩
      | none => exact ⟨d + 1, le_rfl, by simp [extend, hall w hwn hwd]⟩
    · obtain ⟨f, hf, hwf⟩ := h.closed v e hve (by rw [hq]; exact fun hmem => (mem_cons.1 hmem).elim hvcur hvq) hPe w hw
      exact ⟨f, hf, hold hwf⟩

end Round

/-! ### The bounded search -/

/-- **The bounded search**: `while let Some(cur) = queue.pop_front()`, where a vertex at depth `k`
is taken off the queue without being expanded. -/
def loop (succ : V → List V) (emit : V → ℕ → A → A) (k : ℕ) : ℕ → State V A → State V A
  | 0, st => st
  | fuel + 1, st =>
    match st.queue with
    | [] => st
    | cur :: q =>
      let d := (st.depth cur).getD 0
      if d = k then loop succ emit k fuel { st with queue := q }
      else loop succ emit k fuel (expand emit d (succ cur) { st with queue := q })

/-- The vertices of `S` not seen yet, and the ones still queued: what bounds the rounds left. -/
def work (S : Finset V) (st : State V A) : ℕ := st.queue.length + (S.filter fun v => st.depth v = none).card

variable {S : Finset V}

theorem work_expand {emit : V → ℕ → A → A} {d : ℕ} {nbs : List V} (hS : ∀ v ∈ nbs, v ∈ S) : work S (expand emit d nbs st) = work S st := by
  obtain ⟨new, hnd, hsub, -, heq⟩ := expand_eq emit d nbs st
  have hsplit : (S.filter fun v => st.depth v = none) =
      (S.filter fun v => (extend emit d new st).depth v = none) ∪ new.toFinset := by
    ext v
    rw [Finset.mem_union, Finset.mem_filter, Finset.mem_filter, mem_toFinset, extend_depth]
    by_cases hv : v ∈ new
    · simp [hv, (hsub v hv).2, hS v (hsub v hv).1]
    · simp [hv]
  have hdisj : Disjoint (S.filter fun v => (extend emit d new st).depth v = none)
      new.toFinset := by
    rw [Finset.disjoint_left]
    intro v hv hmem
    rw [Finset.mem_filter, extend_depth, if_pos (mem_toFinset.1 hmem)] at hv
    simp at hv
  rw [heq]
  simp only [work, hsplit, Finset.card_union_of_disjoint hdisj, toFinset_card_of_nodup hnd]
  simp only [extend, length_append]
  omega

theorem work_start {s : V} (hs : s ∈ S) {a : A} : work S (start s a) ≤ S.card := by
  have hset : (S.filter fun v => (start s a).depth v = none) = S.erase s := by
    ext w
    rw [Finset.mem_filter, Finset.mem_erase]
    by_cases hw : w = s <;> simp [start, hw]
  have hcard := Finset.card_erase_add_one hs
  simp only [work, hset]
  simp only [start, length_singleton]
  omega

section Bounded

variable {R : V → V → Prop} {succ : V → List V} {s : V} {k : ℕ}

/-- **Every round keeps the invariant and the depth bound**, and with enough fuel the queue runs
empty. -/
theorem inv_loop (hsucc : ∀ v w, w ∈ succ v ↔ R v w) (emit : V → ℕ → A → A)
    (hS : ∀ v, ∀ w ∈ succ v, w ∈ S) (fuel : ℕ) (st : State V A)
    (h : Inv R s (· < k) st) (hk : ∀ v d, st.depth v = some d → d ≤ k) (hf : work S st ≤ fuel) :
    Inv R s (· < k) (loop succ emit k fuel st) ∧ (∀ v d, (loop succ emit k fuel st).depth v = some d → d ≤ k) ∧
      (loop succ emit k fuel st).queue = [] := by
  induction fuel generalizing st with
  | zero =>
    have hq : st.queue = [] := by
      have : st.queue.length = 0 := by unfold work at hf; omega
      exact length_eq_zero_iff.1 this
    exact ⟨h, hk, hq⟩
  | succ fuel ih =>
    cases hq : st.queue with
    | nil => simpa [loop, hq] using ⟨h, hk⟩
    | cons cur q =>
      obtain ⟨d, hd⟩ := h.queued cur (by simp [hq])
      have hwork : work S { st with queue := q } ≤ fuel := by
        have : work S st = work S { st with queue := q } + 1 := by
          simp only [work, hq, length_cons]
          omega
        omega
      by_cases hdk : d = k
      · have hl : loop succ emit k (fuel + 1) st =
            loop succ emit k fuel { st with queue := q } := by simp [loop, hq, hd, hdk]
        rw [hl]
        exact ih _ (h.drop hq hd (by omega)) hk hwork
      · have hl : loop succ emit k (fuel + 1) st =
            loop succ emit k fuel (expand emit d (succ cur) { st with queue := q }) := by
          simp [loop, hq, hd, hdk]
        have hdle : d ≤ k := hk cur d hd
        rw [hl]
        refine ih _ (h.expand hq hd (hsucc cur) emit) ?_ ?_
        · intro v e he
          obtain ⟨new, -, -, -, heq⟩ := expand_eq emit d (succ cur) { st with queue := q }
          rw [heq] at he
          rcases extend_depth_cases he with ⟨-, rfl⟩ | ⟨-, hv⟩
          · omega
          · exact hk v e hv
        · rw [work_expand (hS cur)]
          exact hwork

omit [DecidableEq V] in
theorem Inv.depth_le_of_walk {P : ℕ → Prop} (h : Inv R s P st)
    (hq : st.queue = []) {n : ℕ} {v : V} (hw : Walk R s n v) (hP : ∀ m < n, P m) :
    ∃ d ≤ n, st.depth v = some d := by
  induction hw with
  | nil => exact ⟨0, le_rfl, h.source⟩
  | @snoc n v w _ hr ih =>
    obtain ⟨d, hdn, hd⟩ := ih fun m hm => hP m (by omega)
    obtain ⟨e, he, hwe⟩ := h.closed v d hd (by simp [hq]) (hP d (by omega)) w hr
    exact ⟨e, by omega, hwe⟩

theorem loop_depth_iff (hsucc : ∀ v w, w ∈ succ v ↔ R v w) (emit : V → ℕ → A → A) {S : Finset V}
    (hs : s ∈ S) (hS : ∀ v, ∀ w ∈ succ v, w ∈ S) {fuel : ℕ} (hf : S.card ≤ fuel) (a : A) (v : V)
    (d : ℕ) : (loop succ emit k fuel (start s a)).depth v = some d ↔ IsDist R s v d ∧ d ≤ k := by
  have hwork : work S (start s a) ≤ fuel := le_trans (work_start hs) hf
  obtain ⟨hinv, hbd, hq⟩ := inv_loop hsucc emit hS fuel (start s a) (inv_start R s (· < k) a)
    (fun w e hw => by obtain ⟨-, rfl⟩ := start_depth hw; omega) hwork
  constructor
  · intro h
    refine ⟨⟨hinv.walk v d h, fun n hn => ?_⟩, hbd v d h⟩
    by_cases hnk : n ≤ k
    · obtain ⟨e, hen, he⟩ := hinv.depth_le_of_walk hq hn fun m hm => by omega
      rw [h] at he
      have := Option.some_inj.1 he
      omega
    · have := hbd v d h
      omega
  · rintro ⟨hdist, hdk⟩
    obtain ⟨e, hed, he⟩ := hinv.depth_le_of_walk hq hdist.1 fun m hm => by omega
    have := hdist.2 e (hinv.walk v e he)
    rw [he]
    congr 1
    omega

end Bounded

theorem loop_depth_of_some (succ : V → List V) (emit : V → ℕ → A → A) (k fuel : ℕ) {e : ℕ}
    (h : st.depth v = some e) : (loop succ emit k fuel st).depth v = some e := by
  induction fuel generalizing st with
  | zero => exact h
  | succ fuel ih =>
    cases hq : st.queue with
    | nil => simpa [loop, hq] using h
    | cons cur q =>
      by_cases hd : (st.depth cur).getD 0 = k
      · simp only [loop, hq, hd, if_true]
        exact ih h
      · obtain ⟨new, -, hsub, -, heq⟩ := expand_eq emit ((st.depth cur).getD 0) (succ cur) { st with queue := q }
        simp only [loop, hq, if_neg hd]
        refine ih ?_
        rw [heq]
        exact extend_depth_of_some emit (fun w hw => (hsub w hw).2) h

theorem loop_acc (succ : V → List V) (emit : V → ℕ → A → A) (k fuel : ℕ) (st : State V A) : ∃ trace : List (V × ℕ),
      (loop succ emit k fuel st).acc = trace.foldl (fun a p => emit p.1 p.2 a) st.acc ∧ ∀ v d, (v, d) ∈ trace ↔
        (loop succ emit k fuel st).depth v = some d ∧ st.depth v = none := by
  induction fuel generalizing st with
  | zero => exact ⟨[], rfl, fun v d => by simp +contextual [loop]⟩
  | succ fuel ih =>
    cases hq : st.queue with
    | nil => exact ⟨[], by simp [loop, hq], fun v d => by simp +contextual [loop, hq]⟩
    | cons cur q =>
      by_cases hd : (st.depth cur).getD 0 = k
      · obtain ⟨trace, hacc, htr⟩ := ih { st with queue := q }
        exact ⟨trace, by simpa [loop, hq, hd] using hacc, fun v d => by
          simpa [loop, hq, hd] using htr v d⟩
      · have hl : loop succ emit k (fuel + 1) st = loop succ emit k fuel
            (expand emit ((st.depth cur).getD 0) (succ cur) { st with queue := q }) := by
          simp [loop, hq, hd]
        obtain ⟨new, hnd, hsub, -, heq⟩ := expand_eq emit ((st.depth cur).getD 0) (succ cur) { st with queue := q }
        obtain ⟨trace, hacc, htr⟩ := ih (expand emit ((st.depth cur).getD 0) (succ cur) { st with queue := q })
        refine ⟨new.map (fun v => (v, (st.depth cur).getD 0 + 1)) ++ trace, ?_, ?_⟩
        · rw [hl, hacc, heq, foldl_append, foldl_map]
          rfl
        · intro v e
          rw [hl, mem_append, htr, heq, extend_depth]
          by_cases hv : v ∈ new
          · have hfin := loop_depth_of_some succ emit k fuel
              (show (extend emit ((st.depth cur).getD 0) new { st with queue := q }).depth v =
                some ((st.depth cur).getD 0 + 1) by simp [extend, hv])
            have hnone : st.depth v = none := (hsub v hv).2
            simp [hv, hfin, hnone]
          · simp [hv]

/-! ### The search for a goal -/

/-- Scan the successors of a vertex of depth `d`, returning `d + 1` as soon as the goal is met. -/
def scanGoal (goal : V) (d : ℕ) : List V → State V Unit → ℕ ⊕ State V Unit
  | [], st => .inr st
  | nb :: nbs, st =>
    if nb = goal then .inl (d + 1)
    else scanGoal goal d nbs (discover (fun _ _ a => a) d st nb)

/-- **The goal search**: `none` when the queue runs empty. -/
def goalLoop (succ : V → List V) (goal : V) : ℕ → State V Unit → Option ℕ
  | 0, _ => none
  | fuel + 1, st =>
    match st.queue with
    | [] => none
    | cur :: q =>
      match scanGoal goal ((st.depth cur).getD 0) (succ cur) { st with queue := q } with
      | .inl d => some d
      | .inr st' => goalLoop succ goal fuel st'

theorem scanGoal_eq (goal : V) (d : ℕ) (nbs : List V) (st : State V Unit) : scanGoal goal d nbs st =
      if goal ∈ nbs then .inl (d + 1) else .inr (expand (fun _ _ a => a) d nbs st) := by
  induction nbs generalizing st with
  | nil => simp [scanGoal, expand]
  | cons x nbs ih =>
    by_cases hx : x = goal
    · simp [scanGoal, hx]
    · rw [scanGoal, if_neg hx, ih]
      simp [expand, Ne.symm hx]

section Goal

variable {R : V → V → Prop} {succ : V → List V} {s goal : V}

omit [DecidableEq V] in
/-- While the goal is unseen, no walk to it is shorter than the depth of the front of the queue
allows: a vertex nearer than the front has had its successors seen. -/
theorem Inv.lt_of_walk_unseen {st : State V Unit} (h : Inv R s (fun _ => True) st) {cur : V}
    {q : List V} {d : ℕ} (hq : st.queue = cur :: q) (hd : st.depth cur = some d)
    (hgoal : st.depth goal = none) {n : ℕ} (hw : Walk R s n goal) : d < n := by
  by_contra hlt
  have key : ∀ {m v}, Walk R s m v → m ≤ n → ∃ e ≤ m, st.depth v = some e := by
    intro m v hwm
    induction hwm with
    | nil => exact fun _ => ⟨0, le_rfl, h.source⟩
    | @snoc m v w _ hr ih =>
      intro hm
      obtain ⟨e, hem, he⟩ := ih (by omega)
      have hvq : v ∉ st.queue := by
        rw [hq]
        intro hmem
        have := h.le_of_mem hq hd hmem he
        omega
      obtain ⟨f, hf, hwf⟩ := h.closed v e he hvq trivial w hr
      exact ⟨f, by omega, hwf⟩
  obtain ⟨e, -, he⟩ := key hw le_rfl
  rw [hgoal] at he
  exact Option.some_ne_none e he.symm

theorem goalLoop_spec (hsucc : ∀ v w, w ∈ succ v ↔ R v w) (hS : ∀ v, ∀ w ∈ succ v, w ∈ S) (fuel : ℕ) (st : State V Unit)
    (h : Inv R s (fun _ => True) st) (hgoal : st.depth goal = none) (hf : work S st ≤ fuel)
    (d : ℕ) : goalLoop succ goal fuel st = some d ↔ IsDist R s goal d := by
  -- with the queue empty the seen vertices are closed, so no walk reaches the unseen goal
  have hempty : st.queue = [] → ¬ IsDist R s goal d := by
    rintro hq ⟨hw, -⟩
    obtain ⟨e, -, he⟩ := h.depth_le_of_walk hq hw fun _ _ => trivial
    rw [hgoal] at he
    exact Option.some_ne_none e he.symm
  induction fuel generalizing st with
  | zero =>
    have hq : st.queue = [] := by
      have : st.queue.length = 0 := by unfold work at hf; omega
      exact length_eq_zero_iff.1 this
    simpa [goalLoop] using hempty hq
  | succ fuel ih =>
    cases hq : st.queue with
    | nil => simpa [goalLoop, hq] using hempty hq
    | cons cur q =>
      obtain ⟨e, he⟩ := h.queued cur (by simp [hq])
      by_cases hmem : goal ∈ succ cur
      · have hl : goalLoop succ goal (fuel + 1) st = some (e + 1) := by
          simp [goalLoop, hq, he, scanGoal_eq, hmem]
        have hdist : IsDist R s goal (e + 1) :=
          ⟨(h.walk cur e he).snoc ((hsucc cur goal).1 hmem), fun n hn => h.lt_of_walk_unseen hq he hgoal hn⟩
        rw [hl, Option.some_inj]
        exact ⟨fun heq => heq ▸ hdist, fun hd => hdist.unique hd⟩
      · have hl : goalLoop succ goal (fuel + 1) st = goalLoop succ goal fuel
            (expand (fun _ _ a => a) e (succ cur) { st with queue := q }) := by
          simp [goalLoop, hq, he, scanGoal_eq, hmem]
        have hinv := h.expand hq he (hsucc cur) (fun _ _ a => a)
        have hgoal' : (expand (fun _ _ a => a) e (succ cur)
            { st with queue := q }).depth goal = none := by
          obtain ⟨new, -, hsub, -, heq⟩ := expand_eq (fun _ _ a => a) e (succ cur) { st with queue := q }
          rw [heq, extend_depth, if_neg fun hn => hmem (hsub goal hn).1]
          exact hgoal
        have hwork : work S (expand (fun _ _ a => a) e (succ cur) { st with queue := q }) ≤ fuel := by
          have : work S st = work S { st with queue := q } + 1 := by
            simp only [work, hq, length_cons]
            omega
          rw [work_expand (hS cur)]
          omega
        rw [hl]
        refine ih _ hinv hgoal' hwork ?_
        rintro hq' ⟨hw, -⟩
        obtain ⟨f, -, hf'⟩ := hinv.depth_le_of_walk hq' hw fun _ _ => trivial
        rw [hgoal'] at hf'
        exact Option.some_ne_none f hf'.symm

theorem goalLoop_eq_some_iff (hsucc : ∀ v w, w ∈ succ v ↔ R v w) (hs : s ∈ S)
    (hS : ∀ v, ∀ w ∈ succ v, w ∈ S) {fuel : ℕ} (hf : S.card ≤ fuel) (hne : goal ≠ s) (d : ℕ) :
    goalLoop succ goal fuel (start s ()) = some d ↔ IsDist R s goal d := by
  refine goalLoop_spec hsucc hS fuel (start s ()) (inv_start R s _ ()) ?_ ?_ d
  · simp [start, hne]
  · exact le_trans (work_start hs) hf

end Goal

end Bfs
