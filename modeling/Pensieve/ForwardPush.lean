/-
**Forward push.**

Mass is spread over the nodes of a graph from a queue.  The node at the front gives up its residual:
a part `alpha` of it becomes its estimate, the rest goes in equal shares to its neighbours, each of
which is put into the queue unless it is there.
-/

import Mathlib.Data.List.GetD
import Mathlib.Tactic

namespace ForwardPush

open List

variable {F : Type} [Field F] [LinearOrder F] [IsStrictOrderedRing F]

/-! ### Sums over arrays -/

section Sums

variable {l : List F} {i : ℕ}

omit [LinearOrder F] [IsStrictOrderedRing F] in
theorem sum_modify_add (hi : i < l.length) (x : F) : (l.modify i (· + x)).sum = l.sum + x := by
  induction l generalizing i with
  | nil => cases hi
  | cons a l ih =>
    cases i with
    | zero =>
      rw [modify_zero_cons, sum_cons, sum_cons]
      ring
    | succ i =>
      rw [modify_succ_cons, sum_cons, sum_cons, ih (Nat.lt_of_succ_lt_succ hi)]
      ring

omit [LinearOrder F] [IsStrictOrderedRing F] in
theorem sum_set_zero (hi : i < l.length) : (l.set i 0).sum = l.sum - l.getD i 0 := by
  induction l generalizing i with
  | nil => cases hi
  | cons a l ih =>
    cases i with
    | zero =>
      rw [set_cons_zero, sum_cons, sum_cons, getD_cons_zero]
      ring
    | succ i =>
      rw [set_cons_succ, sum_cons, sum_cons, getD_cons_succ, ih (Nat.lt_of_succ_lt_succ hi)]
      ring

omit [LinearOrder F] [IsStrictOrderedRing F] in
theorem getD_modify (v : ℕ) (x : F) (hi : i < l.length) :
    (l.modify i (· + x)).getD v 0 = if v = i then l.getD v 0 + x else l.getD v 0 := by
  rw [getD_eq_getElem?_getD, getElem?_modify, getD_eq_getElem?_getD]
  by_cases hv : v = i
  · subst hv
    rw [if_pos rfl, getElem?_eq_getElem hi]
    simp
  · have hne : ¬ i = v := Ne.symm hv
    simp [hv, hne]

omit [LinearOrder F] [IsStrictOrderedRing F] in
theorem getD_set_zero (v : ℕ) (hi : i < l.length) : (l.set i 0).getD v 0 = if v = i then 0 else l.getD v 0 := by
  rw [getD_eq_getElem?_getD, getElem?_set, getD_eq_getElem?_getD]
  by_cases hv : v = i
  · subst hv
    rw [if_pos rfl, if_pos rfl, if_pos hi]
    rfl
  · rw [if_neg hv, if_neg (Ne.symm hv)]

end Sums

/-! ### The algorithm -/

structure State (F : Type) where
  p : List F
  r : List F
  queued : List Bool
  queue : List ℕ
  deriving DecidableEq

def enqueue (s : State F) (v : ℕ) : State F :=
  if s.queued.getD v false then s else { s with
    queued := s.queued.set v true
    queue := s.queue ++ [v] }

def receive (share : F) (s : State F) (v : ℕ) : State F := enqueue { s with r := s.r.modify v (· + share) } v

/-- A node is taken from the queue: `x` is added to its estimate, and its residual is gone. -/
def settle (s : State F) (u : ℕ) (rest : List ℕ) (x : F) : State F :=
  ⟨s.p.modify u (· + x), s.r.set u 0, s.queued.set u false, rest⟩

variable (nbrs : ℕ → List ℕ) (alpha eps : F)

/-- **One round**, for the node at the front of the queue. -/
def step (s : State F) : Option (State F) :=
  match s.queue with
  | [] => none
  | u :: rest =>
    let deg := (nbrs u).length
    let ru := s.r.getD u 0
    if deg = 0 then
      -- a sink: the walk ends here, all of the residual becomes mass
      some (settle s u rest ru)
    else if ru < eps * deg then
      some { s with
        queued := s.queued.set u false
        queue := rest }
    else
      some ((nbrs u).foldl (receive ((1 - alpha) * ru / deg)) (settle s u rest (alpha * ru)))

def loop : ℕ → State F → Option (State F)
  | 0, _ => none
  | fuel + 1, s =>
    match step nbrs alpha eps s with
    | none => some s
    | some s' => loop fuel s'

/-- **The state before the first round**: every seed has its share of the residual, and is queued. -/
def start (n : ℕ) (seeds : List ℕ) : State F :=
  let share := 1 / (seeds.length : F)
  let r := seeds.foldl (fun r v => r.modify v (· + share)) (List.replicate n 0)
  seeds.foldl enqueue ⟨List.replicate n 0, r, List.replicate n false, []⟩

/-! ### The invariant -/

def Over (v : ℕ) (x : F) : Prop := if (nbrs v).length = 0 then 0 < x else eps * (nbrs v).length ≤ x

/-- **The invariant** of states over `n` nodes with the mass `total`. -/
structure Inv (n : ℕ) (total : F) (s : State F) : Prop where
  length_p : s.p.length = n
  length_r : s.r.length = n
  length_queued : s.queued.length = n
  total : s.p.sum + s.r.sum = total
  p_nonneg : ∀ v, 0 ≤ s.p.getD v 0
  r_nonneg : ∀ v, 0 ≤ s.r.getD v 0
  lt : ∀ v ∈ s.queue, v < n
  nodup : s.queue.Nodup
  queued : ∀ v < n, (s.queued.getD v false = true ↔ v ∈ s.queue)
  waiting : ∀ v < n, Over nbrs eps v (s.r.getD v 0) → v ∈ s.queue

section Invariant

variable {nbrs alpha eps} {n : ℕ} {total : F} {s : State F}

theorem not_over_zero (heps : 0 < eps) (v : ℕ) : ¬ Over nbrs eps v 0 := by
  unfold Over
  split
  · exact lt_irrefl 0
  · rename_i hdeg
    exact not_le.2 (mul_pos heps (Nat.cast_pos.2 (Nat.pos_of_ne_zero hdeg)))

theorem getD_set_bool {l : List Bool} {v : ℕ} (b : Bool) (hv : v < l.length) (w : ℕ) :
    (l.set v b).getD w false = if w = v then b else l.getD w false := by
  rw [getD_eq_getElem?_getD, getElem?_set, getD_eq_getElem?_getD]
  by_cases hw : w = v
  · subst hw
    rw [if_pos rfl, if_pos rfl, if_pos hv]
    rfl
  · rw [if_neg hw, if_neg (Ne.symm hw)]

omit [Field F] [LinearOrder F] [IsStrictOrderedRing F] in
theorem mem_queue_enqueue {v w : ℕ} (hv : s.queued.getD v false = true → v ∈ s.queue) :
    w ∈ (enqueue s v).queue ↔ w ∈ s.queue ∨ w = v := by
  unfold enqueue
  split
  · rename_i hqueued
    constructor
    · exact .inl
    · rintro (hw | rfl)
      · exact hw
      · exact hv hqueued
  · rw [mem_append, mem_singleton]

theorem Inv.receive (h : Inv nbrs eps n total s) {v : ℕ} (hv : v < n) {share : F} (hshare : 0 ≤ share) :
    Inv nbrs eps n (total + share) (receive share s v) := by
  have hr : v < s.r.length := h.length_r.symm ▸ hv
  have hmem : ∀ w, w ∈ (ForwardPush.receive share s v).queue ↔ w ∈ s.queue ∨ w = v := fun w =>
    mem_queue_enqueue (h.queued v hv).1
  have hresidual : (ForwardPush.receive share s v).r = s.r.modify v (· + share) := by
    unfold ForwardPush.receive enqueue
    split <;> rfl
  have hestimate : (ForwardPush.receive share s v).p = s.p := by
    unfold ForwardPush.receive enqueue
    split <;> rfl
  refine
    { length_p := by rw [hestimate, h.length_p]
      length_r := by rw [hresidual, length_modify, h.length_r]
      length_queued := ?_
      total := by rw [hestimate, hresidual, sum_modify_add hr, ← h.total, add_assoc]
      p_nonneg := fun w => by
        rw [hestimate]
        exact h.p_nonneg w
      r_nonneg := fun w => ?_
      lt := fun w hw => ?_
      nodup := ?_
      queued := fun w hw => ?_
      waiting := fun w hw hover => ?_ }
  · unfold ForwardPush.receive enqueue
    split
    · exact h.length_queued
    · exact length_set.trans h.length_queued
  · rw [hresidual, getD_modify w share hr]
    split
    · exact add_nonneg (h.r_nonneg w) hshare
    · exact h.r_nonneg w
  · rcases (hmem w).1 hw with hw | rfl
    · exact h.lt w hw
    · exact hv
  · unfold ForwardPush.receive enqueue
    split
    · exact h.nodup
    · rename_i hnot
      refine nodup_append.2 ⟨h.nodup, nodup_singleton v, fun a ha b hb => ?_⟩
      rw [mem_singleton.1 hb]
      rintro rfl
      exact hnot ((h.queued a hv).2 ha)
  · rw [hmem]
    unfold ForwardPush.receive enqueue
    split
    · rename_i hqueued
      rw [h.queued w hw]
      refine ⟨.inl, ?_⟩
      rintro (hw | rfl)
      · exact hw
      · exact (h.queued _ hv).1 hqueued
    · change (s.queued.set v true).getD w false = true ↔ _
      rw [getD_set_bool true (h.length_queued.symm ▸ hv)]
      split
      · rename_i heq
        simp [heq]
      · rename_i hne
        rw [h.queued w hw]
        simp [hne]
  · rw [hmem]
    rw [hresidual, getD_modify w share hr] at hover
    split at hover
    · rename_i heq
      exact .inr heq
    · exact .inl (h.waiting w hw hover)

theorem Inv.foldl_receive (h : Inv nbrs eps n total s) {vs : List ℕ} (hvs : ∀ v ∈ vs, v < n) {share : F}
    (hshare : 0 ≤ share) : Inv nbrs eps n (total + vs.length * share) (vs.foldl (ForwardPush.receive share) s) := by
  induction vs generalizing s total with
  | nil => simpa using h
  | cons v vs ih =>
    have hstep := ih (h.receive (hvs v (mem_cons_self ..)) hshare) fun w hw =>
      hvs w (mem_cons_of_mem _ hw)
    rw [foldl_cons, length_cons]
    have hsum : total + share + vs.length * share = total + (vs.length + 1 : ℕ) * share := by
      push_cast
      ring
    rwa [hsum] at hstep

theorem Inv.settle (h : Inv nbrs eps n total s) (heps : 0 < eps) {u : ℕ} {rest : List ℕ}
    (hqueue : s.queue = u :: rest) {x : F} (hx : 0 ≤ x) :
    Inv nbrs eps n (total - s.r.getD u 0 + x) (settle s u rest x) := by
  have hu : u < n := h.lt u (hqueue ▸ mem_cons_self ..)
  have hp : u < s.p.length := h.length_p.symm ▸ hu
  have hr : u < s.r.length := h.length_r.symm ▸ hu
  obtain ⟨hurest, hrest⟩ := nodup_cons.1 (hqueue ▸ h.nodup)
  refine
    { length_p := length_modify .. |>.trans h.length_p
      length_r := length_set.trans h.length_r
      length_queued := length_set.trans h.length_queued
      total := ?_
      p_nonneg := fun w => ?_
      r_nonneg := fun w => ?_
      lt := fun w hw => h.lt w (hqueue ▸ mem_cons_of_mem _ hw)
      nodup := hrest
      queued := fun w hw => ?_
      waiting := fun w hw hover => ?_ }
  · change (s.p.modify u (· + x)).sum + (s.r.set u 0).sum = _
    rw [sum_modify_add hp, sum_set_zero hr, ← h.total]
    ring
  · change 0 ≤ (s.p.modify u (· + x)).getD w 0
    rw [getD_modify w x hp]
    split
    · exact add_nonneg (h.p_nonneg w) hx
    · exact h.p_nonneg w
  · change 0 ≤ (s.r.set u 0).getD w 0
    rw [getD_set_zero w hr]
    split
    · exact le_rfl
    · exact h.r_nonneg w
  · change (s.queued.set u false).getD w false = true ↔ w ∈ rest
    rw [getD_set_bool false (h.length_queued.symm ▸ hu)]
    split
    · rename_i heq
      simp [heq, hurest]
    · rename_i hne
      rw [h.queued w hw, hqueue, mem_cons]
      simp [hne]
  · change Over nbrs eps w ((s.r.set u 0).getD w 0) at hover
    rw [getD_set_zero w hr] at hover
    split at hover
    · exact absurd hover (not_over_zero heps w)
    · rename_i hne
      have hmem := h.waiting w hw hover
      rw [hqueue] at hmem
      exact (mem_cons.1 hmem).resolve_left hne

omit [IsStrictOrderedRing F] in
theorem Inv.pass (h : Inv nbrs eps n total s) {u : ℕ} {rest : List ℕ} (hqueue : s.queue = u :: rest)
    (hnot : ¬ Over nbrs eps u (s.r.getD u 0)) : Inv nbrs eps n total ⟨s.p, s.r, s.queued.set u false, rest⟩ := by
  have hu : u < n := h.lt u (hqueue ▸ mem_cons_self ..)
  obtain ⟨hurest, hrest⟩ := nodup_cons.1 (hqueue ▸ h.nodup)
  refine
    { h with
      length_queued := length_set.trans h.length_queued
      lt := fun w hw => h.lt w (hqueue ▸ mem_cons_of_mem _ hw)
      nodup := hrest
      queued := fun w hw => ?_
      waiting := fun w hw hover => ?_ }
  · change (s.queued.set u false).getD w false = true ↔ w ∈ rest
    rw [getD_set_bool false (h.length_queued.symm ▸ hu)]
    split
    · rename_i heq
      simp [heq, hurest]
    · rename_i hne
      rw [h.queued w hw, hqueue, mem_cons]
      simp [hne]
  · have hmem := h.waiting w hw hover
    rw [hqueue] at hmem
    refine (mem_cons.1 hmem).resolve_left ?_
    rintro rfl
    exact hnot hover

omit [IsStrictOrderedRing F] in
theorem step_cases {s' : State F} (h : step nbrs alpha eps s = some s') :
    ∃ u rest, s.queue = u :: rest ∧ (((nbrs u).length = 0 ∧ s' = settle s u rest (s.r.getD u 0)) ∨
       ((nbrs u).length ≠ 0 ∧ s.r.getD u 0 < eps * (nbrs u).length ∧ s' = ⟨s.p, s.r, s.queued.set u false, rest⟩) ∨
       ((nbrs u).length ≠ 0 ∧ eps * (nbrs u).length ≤ s.r.getD u 0 ∧
        s' = (nbrs u).foldl (ForwardPush.receive ((1 - alpha) * s.r.getD u 0 / (nbrs u).length))
          (settle s u rest (alpha * s.r.getD u 0)))) := by
  cases hqueue : s.queue with
  | nil =>
    simp only [step, hqueue] at h
    cases h
  | cons u rest =>
    refine ⟨u, rest, rfl, ?_⟩
    simp only [step, hqueue] at h
    split at h
    · rename_i hdeg
      exact .inl ⟨hdeg, (Option.some.inj h).symm⟩
    · rename_i hdeg
      split at h
      · rename_i hlt
        exact .inr (.inl ⟨hdeg, hlt, (Option.some.inj h).symm⟩)
      · rename_i hge
        exact .inr (.inr ⟨hdeg, not_lt.1 hge, (Option.some.inj h).symm⟩)

omit [IsStrictOrderedRing F] in
theorem step_eq_none_iff : step nbrs alpha eps s = none ↔ s.queue = [] := by
  cases hqueue : s.queue with
  | nil => simp only [step, hqueue]
  | cons u rest =>
    simp only [step, hqueue]
    split
    · simp
    · split <;> simp

theorem inv_step (hnbrs : ∀ v < n, ∀ w ∈ nbrs v, w < n) (hzero : 0 ≤ alpha) (hone : alpha ≤ 1)
    (heps : 0 < eps) (h : Inv nbrs eps n total s) {s' : State F} (hstep : step nbrs alpha eps s = some s') :
    Inv nbrs eps n total s' := by
  obtain ⟨u, rest, hqueue, hcases⟩ := step_cases hstep
  have hu : u < n := h.lt u (hqueue ▸ mem_cons_self ..)
  have hru := h.r_nonneg u
  rcases hcases with ⟨-, rfl⟩ | ⟨hdeg, hlt, rfl⟩ | ⟨hdeg, -, rfl⟩
  · have hsettle := h.settle heps hqueue hru
    rwa [sub_add_cancel] at hsettle
  · refine h.pass hqueue fun hover => ?_
    rw [Over, if_neg hdeg] at hover
    exact absurd hlt (not_lt.2 hover)
  · -- what is taken and not kept is handed out in as many shares as there are neighbours
    have hcast : ((nbrs u).length : F) ≠ 0 := Nat.cast_ne_zero.2 hdeg
    have hshare : 0 ≤ (1 - alpha) * s.r.getD u 0 / (nbrs u).length :=
      div_nonneg (mul_nonneg (sub_nonneg.2 hone) hru) (Nat.cast_nonneg _)
    have hpush := (h.settle heps hqueue (mul_nonneg hzero hru)).foldl_receive (hnbrs u hu) hshare
    have hsum : total - s.r.getD u 0 + alpha * s.r.getD u 0 +
        (nbrs u).length * ((1 - alpha) * s.r.getD u 0 / (nbrs u).length) = total := by
      rw [mul_div_cancel₀ _ hcast]
      ring
    rwa [hsum] at hpush

end Invariant

/-! ### The start -/

section Start

variable {nbrs eps} {n : ℕ}

omit [LinearOrder F] [IsStrictOrderedRing F] in
theorem foldl_enqueue (seeds : List ℕ) (share : F) (s : State F) :
    seeds.foldl enqueue { s with r := seeds.foldl (fun r v => r.modify v (· + share)) s.r } =
      seeds.foldl (receive share) s := by
  induction seeds generalizing s with
  | nil => rfl
  | cons v seeds ih =>
    have hqueue : ∀ r : List F, enqueue { s with r := r } v = { receive share s v with r := r } := by
      intro r
      unfold receive enqueue
      dsimp only
      split <;> rfl
    have hresidual : (receive share s v).r = s.r.modify v (· + share) := by
      unfold receive enqueue
      split <;> rfl
    rw [foldl_cons, foldl_cons, foldl_cons, hqueue, ← hresidual, ih]

omit [LinearOrder F] [IsStrictOrderedRing F] in
theorem sum_replicate_zero (n : ℕ) : (List.replicate n (0 : F)).sum = 0 := by simp

omit [LinearOrder F] [IsStrictOrderedRing F] in
theorem getD_replicate_zero (n v : ℕ) : (List.replicate n (0 : F)).getD v 0 = 0 := by
  rw [getD_eq_getElem?_getD, getElem?_replicate]
  split <;> rfl

theorem inv_empty (heps : 0 < eps) :
    Inv nbrs eps n (0 : F) ⟨List.replicate n 0, List.replicate n 0, List.replicate n false, []⟩ where
  length_p := length_replicate
  length_r := length_replicate
  length_queued := length_replicate
  total := by rw [sum_replicate_zero, add_zero]
  p_nonneg := fun v => (getD_replicate_zero n v).ge
  r_nonneg := fun v => (getD_replicate_zero n v).ge
  lt := nofun
  nodup := nodup_nil
  queued := fun v hv => by simp [getD_eq_getElem?_getD, hv]
  waiting := fun v _ hover => absurd (getD_replicate_zero (F := F) n v ▸ hover) (not_over_zero heps v)

theorem inv_start (heps : 0 < eps) {seeds : List ℕ} (hseeds : ∀ v ∈ seeds, v < n) (hne : seeds ≠ []) :
    Inv nbrs eps n 1 (start n seeds : State F) := by
  have hcast : (seeds.length : F) ≠ 0 := Nat.cast_ne_zero.2 (length_pos_iff.2 hne).ne'
  have hshare : (0 : F) ≤ 1 / (seeds.length : F) := div_nonneg zero_le_one (Nat.cast_nonneg _)
  have hempty : Inv nbrs eps n (0 : F) _ := inv_empty heps
  have h := hempty.foldl_receive hseeds hshare
  rw [zero_add, mul_div_cancel₀ _ hcast, ← foldl_enqueue] at h
  exact h

end Start

/-! ### The end -/

section End

variable {nbrs alpha eps} {n : ℕ} {s : State F}

theorem sum_nonneg_of_getD {l : List F} (h : ∀ v, 0 ≤ l.getD v 0) : 0 ≤ l.sum := by
  refine sum_nonneg fun x hx => ?_
  obtain ⟨v, hv, rfl⟩ := mem_iff_getElem.1 hx
  rw [← getD_eq_getElem _ 0 hv]
  exact h v

theorem Inv.sum_p_le {total : F} (h : Inv nbrs eps n total s) : s.p.sum ≤ total := by
  have hr := sum_nonneg_of_getD h.r_nonneg
  have htotal := h.total
  linarith

omit [IsStrictOrderedRing F] in
theorem Inv.length_queue_le {total : F} (h : Inv nbrs eps n total s) : s.queue.length ≤ n := by
  have hsub := (h.nodup.subperm fun v hv => mem_range.2 (h.lt v hv)).length_le
  rwa [length_range] at hsub

omit [LinearOrder F] [IsStrictOrderedRing F] in
theorem p_foldl_receive (vs : List ℕ) (share : F) (s : State F) : (vs.foldl (receive share) s).p = s.p := by
  induction vs generalizing s with
  | nil => rfl
  | cons v vs ih =>
    rw [foldl_cons, ih]
    unfold receive enqueue
    split <;> rfl

theorem progress (hzero : 0 < alpha) (heps : 0 < eps) {total : F} (h : Inv nbrs eps n total s)
    {s' : State F} (hstep : step nbrs alpha eps s = some s') :
    (s'.queue.length + 1 = s.queue.length ∧ s.p.sum ≤ s'.p.sum) ∨ s.p.sum + alpha * eps ≤ s'.p.sum := by
  obtain ⟨u, rest, hqueue, hcases⟩ := step_cases hstep
  have hu : u < n := h.lt u (hqueue ▸ mem_cons_self ..)
  have hp : u < s.p.length := h.length_p.symm ▸ hu
  have hru := h.r_nonneg u
  rcases hcases with ⟨-, rfl⟩ | ⟨-, -, rfl⟩ | ⟨hdeg, hge, rfl⟩
  · refine .inl ⟨by rw [hqueue]; rfl, ?_⟩
    change s.p.sum ≤ (s.p.modify u (· + s.r.getD u 0)).sum
    rw [sum_modify_add hp]
    linarith
  · exact .inl ⟨by rw [hqueue]; rfl, le_rfl⟩
  · right
    rw [p_foldl_receive]
    change _ ≤ (s.p.modify u (· + alpha * s.r.getD u 0)).sum
    rw [sum_modify_add hp]
    have hcast : (1 : F) ≤ (nbrs u).length := Nat.one_le_cast.2 (Nat.pos_of_ne_zero hdeg)
    have hmore : eps ≤ s.r.getD u 0 := (le_mul_of_one_le_right heps.le hcast).trans hge
    have hpart := mul_le_mul_of_nonneg_left hmore hzero.le
    linarith

def Leads (nbrs : ℕ → List ℕ) (alpha eps : F) : State F → State F → Prop :=
  Relation.ReflTransGen fun s s' => step nbrs alpha eps s = some s'

theorem inv_of_leads (hnbrs : ∀ v < n, ∀ w ∈ nbrs v, w < n) (hzero : 0 ≤ alpha) (hone : alpha ≤ 1)
    (heps : 0 < eps) {total : F} (h : Inv nbrs eps n total s) {s' : State F}
    (hleads : Leads nbrs alpha eps s s') : Inv nbrs eps n total s' := by
  induction hleads with
  | refl => exact h
  | tail _ hstep ih => exact inv_step hnbrs hzero hone heps ih hstep

/-- **The loop ends.**  There are fewer than `k` rounds in which the estimates grow, and between two of
them no more rounds than there are nodes. -/
theorem loop_terminates (hnbrs : ∀ v < n, ∀ w ∈ nbrs v, w < n) (hzero : 0 < alpha) (hone : alpha ≤ 1)
    (heps : 0 < eps) {fuel k : ℕ} (h : Inv nbrs eps n 1 s) (hk : 1 - s.p.sum < k * (alpha * eps))
    (hfuel : k * (n + 1) + s.queue.length < fuel) :
    ∃ last, loop nbrs alpha eps fuel s = some last ∧ Leads nbrs alpha eps s last ∧ last.queue = [] := by
  induction fuel generalizing s k with
  | zero => cases hfuel
  | succ fuel ih =>
    unfold loop
    cases hstep : step nbrs alpha eps s with
    | none => exact ⟨s, rfl, .refl, step_eq_none_iff.1 hstep⟩
    | some s' =>
      have h' := inv_step hnbrs hzero.le hone heps h hstep
      have hrest : ∃ last, loop nbrs alpha eps fuel s' = some last ∧ Leads nbrs alpha eps s' last ∧
          last.queue = [] := by
        rcases progress hzero heps h hstep with ⟨hlength, hsum⟩ | hgrown
        · exact ih h' (by linarith) (by omega)
        · have hle := h'.sum_p_le
          have hpos := mul_pos hzero heps
          cases k with
          | zero =>
            rw [Nat.cast_zero, zero_mul] at hk
            linarith
          | succ k =>
            push_cast at hk
            have hqueue := h'.length_queue_le
            have hmul : (k + 1) * (n + 1) = k * (n + 1) + (n + 1) := by ring
            exact ih h' (k := k) (by linarith) (by omega)
      obtain ⟨last, hloop, hleads, hlast⟩ := hrest
      exact ⟨last, hloop, .head hstep hleads, hlast⟩

omit [IsStrictOrderedRing F] in
theorem loop_mono {fuel fuel' : ℕ} (hle : fuel ≤ fuel') {last : State F}
    (h : loop nbrs alpha eps fuel s = some last) : loop nbrs alpha eps fuel' s = some last := by
  induction fuel generalizing fuel' s with
  | zero => cases h
  | succ fuel ih =>
    obtain ⟨fuel', rfl⟩ : ∃ m, fuel' = m + 1 := ⟨fuel' - 1, by omega⟩
    unfold loop at h ⊢
    cases hstep : step nbrs alpha eps s with
    | none =>
      rw [hstep] at h
      exact h
    | some s' =>
      rw [hstep] at h
      exact ih (by omega) h

/-- **What holds in every state**: no mass is lost, and whoever has too much of it is in the queue. -/
structure Conserves (nbrs : ℕ → List ℕ) (eps : F) (n : ℕ) (s : State F) : Prop where
  total : s.p.sum + s.r.sum = 1
  p_nonneg : ∀ v, 0 ≤ s.p.getD v 0
  r_nonneg : ∀ v, 0 ≤ s.r.getD v 0
  queued : ∀ v < n, nbrs v ≠ [] → eps * (nbrs v).length ≤ s.r.getD v 0 → v ∈ s.queue
  queued_sink : ∀ v < n, nbrs v = [] → 0 < s.r.getD v 0 → v ∈ s.queue

/-- **What holds at the end**: no node has a residual of its threshold, and no sink has one. -/
structure Settled (nbrs : ℕ → List ℕ) (eps : F) (n : ℕ) (s : State F) : Prop where
  below : ∀ v < n, nbrs v ≠ [] → s.r.getD v 0 < eps * (nbrs v).length
  sink : ∀ v < n, nbrs v = [] → s.r.getD v 0 = 0

omit [IsStrictOrderedRing F] in
theorem Inv.conserves (h : Inv nbrs eps n 1 s) : Conserves nbrs eps n s where
  total := h.total
  p_nonneg := h.p_nonneg
  r_nonneg := h.r_nonneg
  queued := fun v hv hdeg hge => h.waiting v hv (by
    rw [Over, if_neg fun hzero => hdeg (length_eq_zero_iff.1 hzero)]
    exact hge)
  queued_sink := fun v hv hdeg hpos => h.waiting v hv (by
    rw [Over, if_pos (by rw [hdeg]; rfl)]
    exact hpos)

omit [IsStrictOrderedRing F] in
theorem Conserves.settled (h : Conserves nbrs eps n s) (hqueue : s.queue = []) : Settled nbrs eps n s where
  below := fun v hv hdeg => not_le.1 fun hge => by
    have hmem := h.queued v hv hdeg hge
    rw [hqueue] at hmem
    cases hmem
  sink := fun v hv hdeg => le_antisymm (not_lt.1 fun hpos => by
    have hmem := h.queued_sink v hv hdeg hpos
    rw [hqueue] at hmem
    cases hmem) (h.r_nonneg v)

theorem run_start [Archimedean F] (hnbrs : ∀ v < n, ∀ w ∈ nbrs v, w < n) (hzero : 0 < alpha) (hone : alpha ≤ 1)
    (heps : 0 < eps) {seeds : List ℕ} (hseeds : ∀ v ∈ seeds, v < n) (hne : seeds ≠ []) :
    (∀ s, Leads nbrs alpha eps (start n seeds) s → Conserves nbrs eps n s) ∧
      ∃ last fuel, (∀ fuel' ≥ fuel, loop nbrs alpha eps fuel' (start n seeds) = some last) ∧
        Leads nbrs alpha eps (start n seeds) last ∧ Settled nbrs eps n last ∧ last.p.sum ≤ 1 := by
  have hstart : Inv nbrs eps n 1 (start n seeds) := inv_start heps hseeds hne
  have hall : ∀ s, Leads nbrs alpha eps (start n seeds) s → Inv nbrs eps n 1 s := fun s hleads =>
    inv_of_leads hnbrs hzero.le hone heps hstart hleads
  refine ⟨fun s hleads => (hall s hleads).conserves, ?_⟩
  -- as many rounds in which the estimates grow as fit into 1
  obtain ⟨k, hk⟩ := exists_nat_gt ((1 - (start n seeds : State F).p.sum) / (alpha * eps))
  rw [div_lt_iff₀ (mul_pos hzero heps)] at hk
  obtain ⟨last, hloop, hleads, hqueue⟩ := loop_terminates hnbrs hzero hone heps hstart hk (Nat.lt_succ_self _)
  exact ⟨last, _, fun fuel' hfuel => loop_mono hfuel hloop, hleads,
    (hall last hleads).conserves.settled hqueue, (hall last hleads).sum_p_le⟩

end End

end ForwardPush
