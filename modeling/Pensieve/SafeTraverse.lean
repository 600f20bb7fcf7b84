/-
**Traversal with every index checked.**

In the source `out_offsets[vi]`, `self.ids[nb]`, `depth_of[&cur]` and their like stop the program
when the index is not there.
-/

import Pensieve.CsrTraverse
import Pensieve.Bounds

namespace GraphTopo

open List

/-- The arrays of one direction, for `n` nodes and `t` edge types. -/
structure RowsWellFormed (offsets targets etypes : List ℕ) (n t : ℕ) : Prop where
  offsets_length : offsets.length = n + 1
  offsets_zero : offsets.getD 0 0 = 0
  offsets_mono : ∀ i < n, offsets.getD i 0 ≤ offsets.getD (i + 1) 0
  offsets_last : offsets.getD n 0 = targets.length
  etypes_length : etypes.length = targets.length
  targets_lt : ∀ x ∈ targets, x < n
  etypes_lt : ∀ x ∈ etypes, x < t

/-- **A well-formed graph**: both directions, for the same nodes and the same dictionary. -/
structure WellFormed (g : CsrGraph) : Prop where
  out : RowsWellFormed g.outOffsets g.outTargets g.outEtype g.ids.length g.etypes.length
  inn : RowsWellFormed g.inOffsets g.inSources g.inEtype g.ids.length g.etypes.length

namespace Checked

open Bounds

/-! ### The neighbours of an ordinal -/

/-- One direction of `step`: the row of `v`, entry by entry. -/
def pushRow (offsets targets etypes : List ℕ) (v : ℕ) (f : EtypeFilter) (out : List ℕ) : Option (List ℕ) := do
  let start ← index offsets v
  let stop ← index offsets (v + 1)
  (List.range' start (stop - start)).foldlM (fun out i => do
      let t ← index etypes i
      if f.matches t then
        let w ← index targets i
        pure (out ++ [w])
      else pure out)
    out

def step (g : CsrGraph) (v : ℕ) (dir : Direction) (f : EtypeFilter) : Option (List ℕ) := do
  let out ←
    if dir = .back then pure [] else pushRow g.outOffsets g.outTargets g.outEtype v f []
  if dir = .fwd then pure out else pushRow g.inOffsets g.inSources g.inEtype v f out

/-! ### Breadth-first searches -/

/-- See `nb` from a vertex of depth `d`. -/
def discover (g : CsrGraph) (s : String) (d : ℕ) (t : Bfs.State ℕ (Finset (String × String × ℕ)))
    (nb : ℕ) : Option (Bfs.State ℕ (Finset (String × String × ℕ))) :=
  match t.depth nb with
  | some _ => pure t
  | none => do
      let id ← index g.ids nb
      pure
        { depth := Function.update t.depth nb (some (d + 1))
          queue := t.queue ++ [nb]
          acc := insert (s, id, d + 1) t.acc }

/-- One round of `k_hop`: expand the oldest vertex of the queue. -/
def kHopRound (g : CsrGraph) (s : String) (k : ℕ) (dir : Direction) (f : EtypeFilter)
    (t : Bfs.State ℕ (Finset (String × String × ℕ))) : Option (Bfs.State ℕ (Finset (String × String × ℕ)) × Bool) :=
  match t.queue with
  | [] => pure (t, false)
  | cur :: rest => do
      let d ← t.depth cur
      if d = k then pure ({ t with queue := rest }, true)
      else
        let nbrs ← step g cur dir f
        let t ← nbrs.foldlM (discover g s d) { t with queue := rest }
        pure (t, true)

def kHop (g : CsrGraph) (fuel : ℕ) (sources : List String) (k : ℕ) (dir : Direction)
    (etype : Option String) : Option (Finset (String × String × ℕ)) :=
  sources.foldlM (fun out s =>
      match g.idToIdx s with
      | none => pure out
      | some start => do
          let t ← loop (kHopRound g s k dir (g.resolveEtype etype)) fuel
            (Bfs.start start (insert (s, s, 0) out))
          pure t.acc)
    ∅

/-- The neighbours of one vertex in `shortest_path_len`: the answer ends the scan. -/
def scanGoal (goal d : ℕ) (nbrs : List ℕ) (t : Bfs.State ℕ (Option ℕ)) : Bfs.State ℕ (Option ℕ) :=
  nbrs.foldl (fun t nb =>
      if t.acc.isSome then t
      else if nb = goal then { t with acc := some (d + 1) }
      else
        match t.depth nb with
        | some _ => t
        | none =>
          { t with
            depth := Function.update t.depth nb (some (d + 1))
            queue := t.queue ++ [nb] })
    t

def shortestRound (g : CsrGraph) (goal : ℕ) (dir : Direction) (f : EtypeFilter)
    (t : Bfs.State ℕ (Option ℕ)) : Option (Bfs.State ℕ (Option ℕ) × Bool) :=
  match t.queue with
  | [] => pure (t, false)
  | cur :: rest => do
      let d ← t.depth cur
      let nbrs ← step g cur dir f
      let t := scanGoal goal d nbrs { t with queue := rest }
      pure (t, t.acc.isNone)

def shortestPathLen (g : CsrGraph) (fuel : ℕ) (src dst : String) (dir : Direction)
    (etype : Option String) : Option (Option ℕ) :=
  match g.idToIdx src, g.idToIdx dst with
  | some start, some goal =>
    if start = goal then pure (some 0)
    else do
      let t ← loop (shortestRound g goal dir (g.resolveEtype etype)) fuel (Bfs.start start none)
      pure t.acc
  | _, _ => pure none

/-! ### Connected components -/

/-- `u32::MAX`, the label of a node that has none yet. -/
def unlabelled : ℕ := 2 ^ 32 - 1

/-- The labels so far, and the nodes whose neighbours are still to be labelled. -/
structure Labels where
  comp : List ℕ
  queue : List ℕ

/-- Give `v` the label `next`, if it has none. -/
def label (next : ℕ) (t : Labels) (v : ℕ) : Option Labels := do
  let c ← index t.comp v
  if c = unlabelled then
    let comp ← store t.comp v next
    pure ⟨comp, t.queue ++ [v]⟩
  else pure t

def componentRound (g : CsrGraph) (dir : Direction) (next : ℕ) (t : Labels) : Option (Labels × Bool) :=
  match t.queue with
  | [] => pure (t, false)
  | u :: rest => do
      let nbrs ← step g u dir .any
      let t ← nbrs.foldlM (label next) ⟨t.comp, rest⟩
      pure (t, true)

/-- Label the component of `start`, if it has no label yet; the second component is the next label. -/
def labelFrom (g : CsrGraph) (fuel : ℕ) (dir : Direction) (s : List ℕ × ℕ) (start : ℕ) : Option (List ℕ × ℕ) := do
  let c ← index s.1 start
  if c ≠ unlabelled then pure s
  else
    let comp ← store s.1 start s.2
    let t ← loop (componentRound g dir s.2) fuel ⟨comp, [asU32 start]⟩
    pure (t.comp, asU32 (s.2 + 1))

def connectedComponents (g : CsrGraph) (fuel : ℕ) (dir : Direction) : Option (List (String × ℕ)) := do
  let n := g.ids.length
  let s ← (List.range n).foldlM (labelFrom g fuel dir) (List.replicate n unlabelled, 0)
  s.1.zipIdx.mapM fun p => do
    let id ← index g.ids p.2
    pure (id, p.1)

/-! ### Personalized PageRank -/

structure Push where
  p : List Float
  r : List Float
  queued : List Bool
  queue : List ℕ

def enqueue (t : Push) (v : ℕ) : Option Push := do
  let q ← index t.queued v
  if q then pure t
  else
    let queued ← store t.queued v true
    pure { t with queued, queue := t.queue ++ [v] }

def pushTo (push : Float) (t : Push) (v : ℕ) : Option Push := do
  let r ← update t.r v (· + push)
  enqueue { t with r } v

def pushRound (g : CsrGraph) (alpha eps : Float) (dir : Direction) (t : Push) : Option (Push × Bool) :=
  match t.queue with
  | [] => pure (t, false)
  | u :: rest => do
      let queued ← store t.queued u false
      let nbrs ← step g u dir .any
      let deg := Float.ofNat nbrs.length
      let ru ← index t.r u
      if nbrs.length = 0 then
        -- a sink: the walk ends here, all of the residual becomes mass
        let p ← update t.p u (· + ru)
        let r ← store t.r u 0
        pure (⟨p, r, queued, rest⟩, true)
      else if ru < eps * deg then pure (⟨t.p, t.r, queued, rest⟩, true)
      else
        let p ← update t.p u (· + alpha * ru)
        let r ← store t.r u 0
        let t ← nbrs.foldlM (pushTo ((1 - alpha) * ru / deg)) ⟨p, r, queued, rest⟩
        pure (t, true)

def minPositive : Float := 2.2250738585072014e-308

/-- `alpha.clamp(f64::MIN_POSITIVE, 1.0)`. -/
def clampAlpha (alpha : Float) : Float :=
  if alpha < minPositive then minPositive else if 1 < alpha then 1 else alpha

/-- `epsilon.max(f64::MIN_POSITIVE)`: the other operand when `epsilon` is not a number. -/
def maxEpsilon (epsilon : Float) : Float := if minPositive < epsilon then epsilon else minPositive

def seed (n : ℕ) (seedIdx : List ℕ) : Option Push := do
  let share := 1 / Float.ofNat seedIdx.length
  let r ← seedIdx.foldlM (fun r si => update r si (· + share)) (List.replicate n (0 : Float))
  seedIdx.foldlM enqueue ⟨List.replicate n 0, r, List.replicate n false, []⟩

def personalizedPagerank (g : CsrGraph) (fuel : ℕ) (seeds : List String) (alpha epsilon : Float)
    (dir : Direction) : Option (List (String × Float)) :=
  let n := g.ids.length
  let seedIdx := seeds.filterMap g.idToIdx
  if seedIdx = [] ∨ n = 0 then pure []
  else do
    let t ← seed n seedIdx
    let t ← loop (pushRound g (clampAlpha alpha) (maxEpsilon epsilon) dir) fuel t
    let out ← (t.p.zipIdx.filter fun q => 0 < q.1).mapM fun q => do
      let id ← index g.ids q.2
      pure (id, q.1)
    pure (out.mergeSort fun a b => !decide (a.2 < b.2))

/-! ### Rows within bounds -/

theorem index_getD {l : List ℕ} {i : ℕ} (h : i < l.length) : index l i = some (l.getD i 0) := by
  rw [index, getElem?_eq_getElem h, getD_eq_getElem _ _ h]

variable {f : EtypeFilter}

theorem foldlM_push {targets etypes : List ℕ} {l : List ℕ}
    (hl : ∀ i ∈ l, i < targets.length ∧ i < etypes.length) (out : List ℕ) : l.foldlM (fun out i => do
          let t ← index etypes i
          if f.matches t then
            let w ← index targets i
            pure (out ++ [w])
          else pure out)
        out =
      some (out ++ (l.filter fun i => f.matches (etypes.getD i 0)).map fun i =>
        targets.getD i 0) := by
  induction l generalizing out with
  | nil => simp
  | cons i l ih =>
    obtain ⟨htargets, hetypes⟩ := hl i (.head _)
    have htail := ih fun j hj => hl j (.tail _ hj)
    rw [foldlM_cons, index_getD hetypes, index_getD htargets]
    by_cases hm : f.matches (etypes.getD i 0) = true
    · rw [filter_cons, if_pos hm, map_cons]
      have hpush := htail (out ++ [targets.getD i 0])
      rw [append_assoc, singleton_append] at hpush
      simp only [Option.bind_eq_bind, Option.bind_some, if_pos hm]
      exact hpush
    · rw [filter_cons, if_neg hm]
      simp only [Option.bind_eq_bind, Option.bind_some, if_neg hm]
      exact htail out

variable {g : CsrGraph} {offsets targets etypes : List ℕ} {n t : ℕ}

theorem offsets_le_length (h : RowsWellFormed offsets targets etypes n t) {i : ℕ} (hi : i ≤ n) :
    offsets.getD i 0 ≤ targets.length := by
  -- from the last offset downwards
  have key : ∀ j ≤ n, offsets.getD (n - j) 0 ≤ targets.length := by
    intro j
    induction j with
    | zero => exact fun _ => h.offsets_last.le
    | succ j ih =>
      intro hj
      have hstep := h.offsets_mono (n - (j + 1)) (by omega)
      have heq : n - (j + 1) + 1 = n - j := by omega
      rw [heq] at hstep
      exact hstep.trans (ih (by omega))
  have hkey := key (n - i) (by omega)
  have heq : n - (n - i) = i := by omega
  rwa [heq] at hkey

variable {v : ℕ}

theorem pushRow_eq (h : RowsWellFormed offsets targets etypes n t) (hv : v < n) (f : EtypeFilter)
    (out : List ℕ) : pushRow offsets targets etypes v f out = some (out ++
      CsrGraph.scanRow targets etypes (offsets.getD v 0) (offsets.getD (v + 1) 0) f) := by
  have hlen := h.offsets_length
  have hend : offsets.getD (v + 1) 0 ≤ targets.length := offsets_le_length h (by omega)
  unfold pushRow
  rw [index_getD (show v < offsets.length by omega), index_getD (show v + 1 < offsets.length by omega)]
  refine foldlM_push (fun i hi => ?_) out
  rw [mem_range'_1] at hi
  have hetypes := h.etypes_length
  omega

/-- **The row of an ordinal** is read within bounds, and it is what `CsrGraph.step` computes. -/
theorem step_eq (h : WellFormed g) (hv : v < g.ids.length) (dir : Direction)
    (f : EtypeFilter) : step g v dir f = some (g.step v dir f) := by
  unfold step CsrGraph.step
  rw [pushRow_eq h.out hv]
  cases dir with
  | fwd => simp
  | back | both => simp [pushRow_eq h.inn hv]

theorem mem_scanRow (h : RowsWellFormed offsets targets etypes n t) {w : ℕ} (hv : v < n)
    (hw : w ∈ CsrGraph.scanRow targets etypes (offsets.getD v 0) (offsets.getD (v + 1) 0) f) : w < n := by
  have hend : offsets.getD (v + 1) 0 ≤ targets.length := offsets_le_length h (by omega)
  obtain ⟨i, hi, rfl⟩ := mem_map.mp hw
  have hrange := mem_range'_1.mp (mem_filter.mp hi).1
  have hlt : i < targets.length := by omega
  rw [getD_eq_getElem _ _ hlt]
  exact h.targets_lt _ (getElem_mem hlt)

theorem safe_step (h : WellFormed g) (hv : v < g.ids.length) (dir : Direction)
    (f : EtypeFilter) : Safe (step g v dir f) fun nbrs => ∀ w ∈ nbrs, w < g.ids.length := by
  refine ⟨g.step v dir f, step_eq h hv dir f, fun w hw => ?_⟩
  unfold CsrGraph.step at hw
  rcases mem_append.mp hw with hw | hw
  · split at hw
    · exact absurd hw not_mem_nil
    · exact mem_scanRow h.out hv hw
  · split at hw
    · exact absurd hw not_mem_nil
    · exact mem_scanRow h.inn hv hw

/-! ### The searches are safe -/

def QueueSafe {A : Type} (g : CsrGraph) (t : Bfs.State ℕ A) : Prop :=
  ∀ v ∈ t.queue, v < g.ids.length ∧ ∃ d, t.depth v = some d

theorem queueSafe_start {A : Type} (hv : v < g.ids.length) (a : A) : QueueSafe g (Bfs.start v a) := by
  intro w hw
  obtain rfl := mem_singleton.mp hw
  exact ⟨hv, 0, by simp [Bfs.start]⟩

theorem exists_depth_update {depth : ℕ → Option ℕ} {w d : ℕ} (h : ∃ e, depth v = some e) :
    ∃ e, Function.update depth w (some d) v = some e := by
  by_cases hvw : v = w
  · exact ⟨d, by rw [hvw, Function.update_self]⟩
  · rwa [Function.update_of_ne hvw]

theorem queueSafe_push {A : Type} {t t' : Bfs.State ℕ A} {nb d : ℕ} (h : QueueSafe g t)
    (hnb : nb < g.ids.length) (hdepth : t'.depth = Function.update t.depth nb (some d))
    (hqueue : t'.queue = t.queue ++ [nb]) : QueueSafe g t' := by
  intro v hv
  rw [hqueue, mem_append] at hv
  rw [hdepth]
  rcases hv with hv | hv
  · exact ⟨(h v hv).1, exists_depth_update (h v hv).2⟩
  · obtain rfl := mem_singleton.mp hv
    exact ⟨hnb, d, by rw [Function.update_self]⟩

theorem safe_discover {s : String} {d nb : ℕ} {t : Bfs.State ℕ (Finset (String × String × ℕ))}
    (h : QueueSafe g t) (hnb : nb < g.ids.length) : Safe (discover g s d t nb) (QueueSafe g) := by
  unfold discover
  split
  · exact Safe.pure h
  · refine (Safe.index hnb).bind fun id _ => Safe.pure ?_
    exact queueSafe_push h hnb rfl rfl

theorem queueSafe_tail {A : Type} {t : Bfs.State ℕ A} (h : QueueSafe g t) {cur : ℕ} {rest : List ℕ}
    (hq : t.queue = cur :: rest) : QueueSafe g { t with queue := rest } :=
  fun v hv => h v (hq ▸ mem_cons_of_mem cur hv)

variable {dir : Direction}

theorem safe_kHopRound (hwf : WellFormed g) {s : String} {k : ℕ}
    {t : Bfs.State ℕ (Finset (String × String × ℕ))} (h : QueueSafe g t) :
    Safe (kHopRound g s k dir f t) fun r => QueueSafe g r.1 := by
  unfold kHopRound
  split
  · exact Safe.pure h
  · rename_i cur rest hq
    obtain ⟨hcur, d, hd⟩ := h cur (hq ▸ .head _)
    have htail := queueSafe_tail h hq
    rw [hd]
    refine Safe.bind (P := fun e => e = d) ⟨d, rfl, rfl⟩ fun e _ => ?_
    split
    · exact Safe.pure htail
    · refine (safe_step hwf hcur dir f).bind fun nbrs hnbrs => ?_
      refine (Safe.foldlM htail fun t nb hnb ht => safe_discover ht (hnbrs nb hnb)).bind ?_
      exact fun t ht => Safe.pure ht

theorem queueSafe_scanGoal {goal d : ℕ} {nbrs : List ℕ} {t : Bfs.State ℕ (Option ℕ)}
    (h : QueueSafe g t) (hnbrs : ∀ w ∈ nbrs, w < g.ids.length) : QueueSafe g (scanGoal goal d nbrs t) := by
  unfold scanGoal
  induction nbrs generalizing t with
  | nil => exact h
  | cons nb nbrs ih =>
    rw [foldl_cons]
    refine ih ?_ fun w hw => hnbrs w (.tail _ hw)
    split
    · exact h
    · split
      · exact h
      · split
        · exact h
        · exact queueSafe_push h (hnbrs nb (.head _)) rfl rfl

theorem safe_shortestRound (hwf : WellFormed g) {goal : ℕ} {t : Bfs.State ℕ (Option ℕ)}
    (h : QueueSafe g t) : Safe (shortestRound g goal dir f t) fun r => QueueSafe g r.1 := by
  unfold shortestRound
  split
  · exact Safe.pure h
  · rename_i cur rest hq
    obtain ⟨hcur, d, hd⟩ := h cur (hq ▸ .head _)
    rw [hd]
    refine Safe.bind (P := fun e => e = d) ⟨d, rfl, rfl⟩ fun e _ => ?_
    refine (safe_step hwf hcur dir f).bind fun nbrs hnbrs => Safe.pure ?_
    exact queueSafe_scanGoal (queueSafe_tail h hq) hnbrs

/-! ### Labelling is safe -/

structure Labels.Inv (n : ℕ) (t : Labels) : Prop where
  comp_length : t.comp.length = n
  queue_lt : ∀ v ∈ t.queue, v < n

theorem safe_label {next : ℕ} {s : Labels} (h : s.Inv n) (hv : v < n) : Safe (label next s v) (Labels.Inv n) := by
  have hlen : v < s.comp.length := by rw [h.comp_length]; exact hv
  refine (Safe.index hlen).bind fun c _ => ?_
  split
  · refine (Safe.store hlen).bind fun comp hcomp => Safe.pure ⟨?_, ?_⟩
    · exact hcomp.1.trans h.comp_length
    · intro w hw
      rcases mem_append.mp hw with hw | hw
      · exact h.queue_lt w hw
      · rwa [mem_singleton.mp hw]
  · exact Safe.pure h

theorem safe_componentRound (hwf : WellFormed g) {next : ℕ} {s : Labels} (h : s.Inv g.ids.length) :
    Safe (componentRound g dir next s) fun r => r.1.Inv g.ids.length := by
  unfold componentRound
  split
  · exact Safe.pure h
  · rename_i u rest hq
    have hu : u < g.ids.length := h.queue_lt u (hq ▸ .head _)
    refine (safe_step hwf hu dir .any).bind fun nbrs hnbrs => ?_
    have hrest : (⟨s.comp, rest⟩ : Labels).Inv g.ids.length :=
      ⟨h.comp_length, fun v hv => h.queue_lt v (hq ▸ .tail _ hv)⟩
    refine (Safe.foldlM hrest fun s v hv hs => safe_label hs (hnbrs v hv)).bind ?_
    exact fun s hs => Safe.pure hs

theorem asU32_le (v : ℕ) : asU32 v ≤ v := Nat.mod_le v (2 ^ 32)

theorem safe_labelFrom (hwf : WellFormed g) {fuel : ℕ} {s : List ℕ × ℕ} {start : ℕ}
    (hs : s.1.length = g.ids.length) (hstart : start < g.ids.length) :
    Safe (labelFrom g fuel dir s start) fun s => s.1.length = g.ids.length := by
  refine (Safe.index (hs ▸ hstart)).bind fun c _ => ?_
  split
  · exact Safe.pure hs
  · refine (Safe.store (hs ▸ hstart)).bind fun comp hcomp => ?_
    have hinit : (⟨comp, [asU32 start]⟩ : Labels).Inv g.ids.length := by
      refine ⟨hcomp.1.trans hs, fun v hv => ?_⟩
      have hle := asU32_le start
      rw [mem_singleton.mp hv]
      omega
    refine (Safe.loop (fun s hs => safe_componentRound hwf hs) fuel hinit).bind ?_
    exact fun t ht => Safe.pure ht.comp_length

theorem safe_names {α : Type} {l : List (α × ℕ)} (hl : ∀ p ∈ l, p.2 < g.ids.length) : Safe (l.mapM fun p => do
      let id ← index g.ids p.2
      pure (id, p.1)) fun _ => True := by
  refine (Safe.mapM (Q := fun _ => True) fun p hp => ?_).mono fun _ _ => trivial
  exact (Safe.index (hl p hp)).bind fun id _ => Safe.pure trivial

theorem lt_of_mem_zipIdx {α : Type} {l : List α} {p : α × ℕ} (hp : p ∈ l.zipIdx) : p.2 < l.length := by
  have := snd_lt_of_mem_zipIdx hp
  omega

/-- **`connected_components` is safe** on every graph that is well formed. -/
theorem safe_connectedComponents (hwf : WellFormed g) (fuel : ℕ) (dir : Direction) :
    Safe (connectedComponents g fuel dir) fun _ => True := by
  unfold connectedComponents
  refine (Safe.foldlM (I := fun s => s.1.length = g.ids.length) length_replicate
    fun s start hstart hs => safe_labelFrom hwf hs (mem_range.mp hstart)).bind fun s hs => ?_
  exact safe_names fun p hp => hs ▸ lt_of_mem_zipIdx hp

/-! ### Pushing mass is safe -/

structure Push.Inv (n : ℕ) (t : Push) : Prop where
  p_length : t.p.length = n
  r_length : t.r.length = n
  queued_length : t.queued.length = n
  queue_lt : ∀ v ∈ t.queue, v < n

theorem safe_enqueue {s : Push} (h : s.Inv n) (hv : v < n) : Safe (enqueue s v) (Push.Inv n) := by
  have hlen : v < s.queued.length := by rw [h.queued_length]; exact hv
  refine (Safe.index hlen).bind fun q _ => ?_
  split
  · exact Safe.pure h
  · refine (Safe.store hlen).bind fun queued hqueued => Safe.pure ?_
    refine ⟨h.p_length, h.r_length, hqueued.1.trans h.queued_length, fun w hw => ?_⟩
    rcases mem_append.mp hw with hw | hw
    · exact h.queue_lt w hw
    · rwa [mem_singleton.mp hw]

theorem safe_pushTo {push : Float} {s : Push} (h : s.Inv n) (hv : v < n) : Safe (pushTo push s v) (Push.Inv n) := by
  have hlen : v < s.r.length := by rw [h.r_length]; exact hv
  refine (Safe.update hlen).bind fun r hr => safe_enqueue ?_ hv
  exact ⟨h.p_length, hr.1.trans h.r_length, h.queued_length, h.queue_lt⟩

theorem safe_pushRound (hwf : WellFormed g) {alpha eps : Float} {s : Push} (h : s.Inv g.ids.length) :
    Safe (pushRound g alpha eps dir s) fun r => r.1.Inv g.ids.length := by
  unfold pushRound
  split
  · exact Safe.pure h
  · rename_i u rest hq
    have hu : u < g.ids.length := h.queue_lt u (hq ▸ .head _)
    have hrest : ∀ v ∈ rest, v < g.ids.length := fun v hv => h.queue_lt v (hq ▸ .tail _ hv)
    have hup : u < s.p.length := by rw [h.p_length]; exact hu
    have hur : u < s.r.length := by rw [h.r_length]; exact hu
    have huq : u < s.queued.length := by rw [h.queued_length]; exact hu
    refine (Safe.store huq).bind fun queued hqueued => ?_
    have hqlen := hqueued.1.trans h.queued_length
    refine (safe_step hwf hu dir .any).bind fun nbrs hnbrs => ?_
    refine (Safe.index hur).bind fun ru _ => ?_
    split
    · refine (Safe.update hup).bind fun p hp => (Safe.store hur).bind fun r hr => Safe.pure ?_
      exact ⟨hp.1.trans h.p_length, hr.1.trans h.r_length, hqlen, hrest⟩
    · split
      · exact Safe.pure ⟨h.p_length, h.r_length, hqlen, hrest⟩
      · refine (Safe.update hup).bind fun p hp => (Safe.store hur).bind fun r hr => ?_
        have hinv : (⟨p, r, queued, rest⟩ : Push).Inv g.ids.length :=
          ⟨hp.1.trans h.p_length, hr.1.trans h.r_length, hqlen, hrest⟩
        refine (Safe.foldlM hinv fun s v hv hs => safe_pushTo hs (hnbrs v hv)).bind ?_
        exact fun s hs => Safe.pure hs

theorem safe_seed {seedIdx : List ℕ} (h : ∀ i ∈ seedIdx, i < n) : Safe (seed n seedIdx) (Push.Inv n) := by
  unfold seed
  refine (Safe.foldlM (I := fun r => r.length = n) length_replicate fun r i hi hr => ?_).bind fun r hr => ?_
  · exact (Safe.update (by rw [hr]; exact h i hi)).mono fun r' hr' => hr'.1.trans hr
  · refine Safe.foldlM ?_ fun s i hi hs => safe_enqueue hs (h i hi)
    exact ⟨length_replicate, hr, length_replicate, by simp⟩

section Searches

variable (hwf : WellFormed g) (hidx : ∀ s i, g.idToIdx s = some i → i < g.ids.length)
include hwf hidx

/-- **`k_hop` is safe** on every graph that is well formed. -/
theorem safe_kHop (fuel : ℕ) (sources : List String) (k : ℕ) (dir : Direction)
    (etype : Option String) : Safe (kHop g fuel sources k dir etype) fun _ => True := by
  refine Safe.foldlM trivial fun out s _ _ => ?_
  split
  · exact Safe.pure trivial
  · rename_i start hs
    refine (Safe.loop (fun t ht => safe_kHopRound hwf ht) fuel (queueSafe_start (hidx s start hs) _)).bind ?_
    exact fun t _ => Safe.pure trivial

/-- **`shortest_path_len` is safe.** -/
theorem safe_shortestPathLen (fuel : ℕ) (src dst : String) (dir : Direction)
    (etype : Option String) : Safe (shortestPathLen g fuel src dst dir etype) fun _ => True := by
  unfold shortestPathLen
  split
  · rename_i start goal hsrc _
    split
    · exact Safe.pure trivial
    · refine (Safe.loop (fun t ht => safe_shortestRound hwf ht) fuel
        (queueSafe_start (hidx src start hsrc) none)).bind ?_
      exact fun t _ => Safe.pure trivial
  · exact Safe.pure trivial

/-- **`personalized_pagerank` is safe.** -/
theorem safe_personalizedPagerank (fuel : ℕ) (seeds : List String) (alpha epsilon : Float) (dir : Direction) :
    Safe (personalizedPagerank g fuel seeds alpha epsilon dir) fun _ => True := by
  have hseeds : ∀ i ∈ seeds.filterMap g.idToIdx, i < g.ids.length := by
    intro i hi
    obtain ⟨s, -, hs⟩ := mem_filterMap.mp hi
    exact hidx s i hs
  unfold personalizedPagerank
  simp only
  split
  · exact Safe.pure trivial
  · refine (safe_seed hseeds).bind fun t ht => ?_
    refine (Safe.loop (fun t ht => safe_pushRound hwf ht) fuel ht).bind fun t ht => ?_
    refine (safe_names fun p hp => ?_).bind fun out _ => Safe.pure trivial
    exact ht.p_length ▸ lt_of_mem_zipIdx (mem_filter.mp hp).1

end Searches

end Checked

end GraphTopo
