/-
**Traversal that gives back the edges.**

`graph-traverse` walks the graph by a recursion that carries the node last left, keeps the smallest
depth for each pair of nodes that a hop joined, and then joins these pairs with the edge table to
get the edges back.
-/

import Pensieve.VarLength

namespace KqlGraph

open List
open Bfs RecursiveCte SqlJoin

/-! ### The operator -/

/-- What `graph-traverse` is written with. -/
structure Traverse where
  seeds : List String
  maxHops : ℕ
  direction : GraphDirection
  edgeType : Option String

section Result

variable {ε : Type} (T : EdgeTable ε) (q : Traverse)

/-- `_gt`: each node with the node last left, `path_src`, which at a seed is the seed itself. -/
def gtRows (fuel : ℕ) : Option (List (Option String × Option String × ℕ)) :=
  unionAll (hopRows (hops T q.direction q.edgeType) (fun _ node => node) q.maxHops) fuel
    ((q.seeds.map fun s => (some s, some s)).map fun a => (a.1, a.2, 0))

/-- `_gt_min`: the smallest depth for each `node` and `path_src`. -/
def gtMin (rows : List (Option String × Option String × ℕ)) : List ((Option String × Option String) × ℕ) :=
  minPer (fun r => (r.2.1, r.1)) (fun r => r.2.2) rows

/-- The join with the edge table: `e.src = m.path_src AND e.dst = m.node`. -/
def joinsEdge (m : (Option String × Option String) × ℕ) (e : ε) : Bool :=
  sqlEq (T.src e) m.1.2 && sqlEq (T.dst e) m.1.1

/-- **`_gt_result`**: the edge with the depth. -/
def gtResult (fuel : ℕ) : Option (List (ε × ℕ)) :=
  (gtRows T q fuel).map fun rows =>
    (innerJoin (joinsEdge T) (gtMin rows) T.rows).map fun p => (p.2, p.1.2)

/-! ### The edges that can be followed -/

def ways (direction : GraphDirection) (e : ε) : List (String × String) :=
  match T.src e, T.dst e with
  | some u, some w =>
    match direction with
    | .forward => [(u, w)]
    | .backward => [(w, u)]
    | .both => if u = w then [(u, u)] else [(u, w), (w, u)]
  | _, _ => []

/-- A walk of `k` hops leads from a seed to `u`. -/
def Reached (k : ℕ) (u : String) : Prop := ∃ s ∈ q.seeds, Walk (HopRel T q.direction q.edgeType) (some s) k (some u)

open Classical in
noncomputable def seedDist (u : String) : Option ℕ :=
  if h : ∃ k, Reached T q k u then some (Nat.find h) else none

/-- The depth of an edge that is followed from `u`. -/
noncomputable def arrive (u : String) : Option ℕ :=
  (seedDist T q u).bind fun k => if k < q.maxHops then some (k + 1) else none

/-- The depths of an edge, one for each way to follow it: none, if it is not of the type asked
for. -/
noncomputable def arrivals (e : ε) : List ℕ :=
  if typeFilter T q.edgeType e then (ways T q.direction e).filterMap fun p => arrive T q p.1 else []

/-- **The traversed edges.** -/
noncomputable def traversed : List (ε × ℕ) := T.rows.flatMap fun e => (arrivals T q e).map fun d => (e, d)

/-- **What an edge must be like for the join to be right about it**: it is no self-loop at a seed,
and according to the direction

* if it is parallel to an edge that was followed, it is of the type asked for;
* it is of that type and ends at a seed exactly when it starts at a seed and an edge of that type
  leads back;
* it is of that type if it leaves a seed along an edge that is, and then it does not end at a seed
  nor, if there is more than one hop, start at one. -/
def JoinsBack (e : ε) : Prop :=
  ∀ u w, T.src e = some u → T.dst e = some w → ¬ (u = w ∧ u ∈ q.seeds) ∧ match q.direction with
    | .forward => (∃ k < q.maxHops, Reached T q k u) →
        (∃ e' ∈ T.rows, typeFilter T q.edgeType e' = true ∧ T.src e' = some u ∧ T.dst e' = some w) →
        typeFilter T q.edgeType e = true
    | .backward => 0 < q.maxHops → (typeFilter T q.edgeType e = true ∧ w ∈ q.seeds ↔ u ∈ q.seeds ∧
          ∃ e' ∈ T.rows, typeFilter T q.edgeType e' = true ∧ T.src e' = some w ∧ T.dst e' = some u)
    | .both => 0 < q.maxHops → (typeFilter T q.edgeType e = true → w ∉ q.seeds ∧ (1 < q.maxHops → u ∉ q.seeds)) ∧
        (u ∈ q.seeds → (∃ e' ∈ T.rows, typeFilter T q.edgeType e' = true ∧ T.src e' = some u ∧ T.dst e' = some w) →
          typeFilter T q.edgeType e = true)

end Result

section Hop

variable {ε : Type} {T : EdgeTable ε} {q : Traverse}

variable {direction : GraphDirection}

theorem mem_ways_iff {e : ε} {u w : String} :
    (u, w) ∈ ways T direction e ↔ (direction ≠ .backward ∧ T.src e = some u ∧ T.dst e = some w) ∨
        (direction ≠ .forward ∧ T.dst e = some u ∧ T.src e = some w) := by
  unfold ways
  cases hs : T.src e with
  | none => simp
  | some a =>
    cases hd : T.dst e with
    | none => simp
    | some b =>
      cases direction with
      | forward | backward => simp [eq_comm]
      | both =>
        by_cases hab : a = b
        · subst hab
          simp [eq_comm]
        · simp [hab, eq_comm]

theorem hopRel_iff_ways {edgeType : Option String} {u w : String} : HopRel T direction edgeType (some u) (some w) ↔
      ∃ e ∈ T.rows, typeFilter T edgeType e = true ∧ (u, w) ∈ ways T direction e := by
  rw [hopRel_iff]
  refine exists_congr fun e => and_congr_right fun _ => ?_
  rw [mem_ways_iff]
  cases direction with
  | forward | backward => simp only [joinCond, nextNode, sqlEq_iff]; grind
  | both => simp only [joinCond, nextNode, Bool.or_eq_true, sqlEq_iff]; grind

theorem not_hopRel_none {edgeType w : Option String} : ¬ HopRel T direction edgeType none w := by
  rw [hopRel_iff]
  rintro ⟨e, -, hj, -, -⟩
  have hnone : ∀ a, sqlEq a none = false := by
    intro a
    cases a <;> rfl
  cases direction <;> simp [joinCond, hnone] at hj

end Hop

section Distance

variable {ε : Type} {T : EdgeTable ε} {q : Traverse}

variable {u : String}

theorem reached_zero : Reached T q 0 u ↔ u ∈ q.seeds := by
  constructor
  · rintro ⟨s, hs, hw⟩
    cases hw
    exact hs
  · exact fun hu => ⟨u, hu, Walk.nil⟩

theorem Reached.succ {k : ℕ} {w : String} (h : Reached T q k u)
    (hop : HopRel T q.direction q.edgeType (some u) (some w)) : Reached T q (k + 1) w := by
  obtain ⟨s, hs, hw⟩ := h
  exact ⟨s, hs, hw.snoc hop⟩

theorem seedDist_eq_some_iff {k : ℕ} : seedDist T q u = some k ↔ Reached T q k u ∧ ∀ n, Reached T q n u → k ≤ n := by
  classical
  unfold seedDist
  split_ifs with h
  · rw [Option.some.injEq, Nat.find_eq_iff]
    exact and_congr_right fun _ =>
      ⟨fun hmin n hn => not_lt.1 fun hlt => hmin n hlt hn, fun hmin n hlt hn => absurd (hmin n hn) (by omega)⟩
  · simp only [false_iff]
    exact fun hk => h ⟨k, hk.1⟩

theorem arrive_eq_some_iff {d : ℕ} :
    arrive T q u = some d ↔ ∃ k < q.maxHops, d = k + 1 ∧ Reached T q k u ∧ ∀ n, Reached T q n u → k ≤ n := by
  simp only [arrive, Option.bind_eq_some_iff, seedDist_eq_some_iff, Option.ite_none_right_eq_some, Option.some.injEq]
  constructor
  · rintro ⟨k, hk, hlt, rfl⟩
    exact ⟨k, hlt, rfl, hk⟩
  · rintro ⟨k, hlt, rfl, hk⟩
    exact ⟨k, hk, hlt, rfl⟩

theorem exists_arrive_iff : (∃ d, arrive T q u = some d) ↔ ∃ k < q.maxHops, Reached T q k u := by
  classical
  constructor
  · rintro ⟨d, hd⟩
    obtain ⟨k, hlt, -, hk, -⟩ := arrive_eq_some_iff.1 hd
    exact ⟨k, hlt, hk⟩
  · rintro ⟨k, hlt, hk⟩
    have hex : ∃ k, Reached T q k u := ⟨k, hk⟩
    have hle : Nat.find hex ≤ k := Nat.find_min' hex hk
    exact ⟨Nat.find hex + 1, arrive_eq_some_iff.2
      ⟨Nat.find hex, by omega, rfl, Nat.find_spec hex, fun n hn => Nat.find_min' hex hn⟩⟩

theorem arrive_eq_one_iff : arrive T q u = some 1 ↔ 0 < q.maxHops ∧ u ∈ q.seeds := by
  rw [arrive_eq_some_iff]
  constructor
  · rintro ⟨k, hlt, hk, hr, -⟩
    obtain rfl : k = 0 := by omega
    exact ⟨hlt, reached_zero.1 hr⟩
  · rintro ⟨hlt, hu⟩
    exact ⟨0, hlt, rfl, reached_zero.2 hu, fun n _ => Nat.zero_le n⟩

theorem arrive_ne_zero : arrive T q u ≠ some 0 := by
  intro h
  obtain ⟨k, -, hk, -⟩ := arrive_eq_some_iff.1 h
  omega

end Distance

section Found

variable {ε : Type} {T : EdgeTable ε} {q : Traverse}

open Classical in
/-- The depths that the join finds for an edge: `0` for a self-loop at a seed, which the row of the
seed answers; else one more than the distance of its source, if a hop of the type asked for led from
its source to its destination. -/
noncomputable def found (T : EdgeTable ε) (q : Traverse) (e : ε) : List ℕ :=
  match T.src e, T.dst e with
  | some u, some w =>
    if u = w ∧ u ∈ q.seeds then [0]
    else if HopRel T q.direction q.edgeType (some u) (some w) then (arrive T q u).toList else []
  | _, _ => []

theorem exists_gtRows {fuel : ℕ} (hfuel : q.maxHops < fuel) :
    ∃ rows, gtRows T q fuel = some rows ∧ ∀ u w d, (some u, some w, d) ∈ rows ↔ d = 0 ∧ u = w ∧ u ∈ q.seeds ∨
        ∃ k < q.maxHops, d = k + 1 ∧ Reached T q k u ∧ HopRel T q.direction q.edgeType (some u) (some w) := by
  obtain ⟨rows, hrows, hmem⟩ := exists_walks (hops T q.direction q.edgeType)
    (fun _ node => node) hfuel (q.seeds.map fun s => (some s, some s))
  refine ⟨rows, hrows, fun u w d => ?_⟩
  rw [hmem]
  simp only [mem_map]
  constructor
  · rintro ⟨hd, _, ⟨s, hs, rfl⟩, hw⟩
    rcases walk_snd_iff.1 hw with ⟨rfl, hu, hv⟩ | ⟨k, rfl, hwk, hop⟩
    · obtain rfl := Option.some_inj.1 hu
      obtain rfl := Option.some_inj.1 hv
      exact Or.inl ⟨rfl, rfl, hs⟩
    · exact Or.inr ⟨k, by omega, rfl, ⟨s, hs, hwk⟩, hop⟩
  · rintro (⟨rfl, rfl, hu⟩ | ⟨k, hk, rfl, ⟨s, hs, hwk⟩, hop⟩)
    · exact ⟨Nat.zero_le _, _, ⟨u, hu, rfl⟩, Walk.nil⟩
    · exact ⟨hk, _, ⟨s, hs, rfl⟩, walk_snd_iff.2 (Or.inr ⟨k, rfl, hwk, hop⟩)⟩

theorem nodup_gtMin (rows : List (Option String × Option String × ℕ)) : ((gtMin rows).map Prod.fst).Nodup :=
  nodup_keys_minPer _ _ rows

theorem mem_gtMin_iff {rows : List (Option String × Option String × ℕ)}
    (hmem : ∀ u w d, (some u, some w, d) ∈ rows ↔ d = 0 ∧ u = w ∧ u ∈ q.seeds ∨
      ∃ k < q.maxHops, d = k + 1 ∧ Reached T q k u ∧ HopRel T q.direction q.edgeType (some u) (some w))
    {u w : String} {d : ℕ} : ((some w, some u), d) ∈ gtMin rows ↔ if u = w ∧ u ∈ q.seeds then d = 0
      else HopRel T q.direction q.edgeType (some u) (some w) ∧ arrive T q u = some d := by
  have hmin : ((some w, some u), d) ∈ gtMin rows ↔
      (some u, some w, d) ∈ rows ∧ ∀ n, (some u, some w, n) ∈ rows → d ≤ n := by
    rw [gtMin, mem_minPer_iff]
    constructor
    · rintro ⟨⟨⟨p, v, d'⟩, hr, heq, rfl⟩, h⟩
      simp only [Prod.mk.injEq] at heq
      obtain ⟨rfl, rfl⟩ := heq
      exact ⟨hr, fun n hn => h _ hn rfl⟩
    · rintro ⟨hr, h⟩
      refine ⟨⟨_, hr, rfl, rfl⟩, ?_⟩
      rintro ⟨p, v, n⟩ hn heq
      simp only [Prod.mk.injEq] at heq
      obtain ⟨rfl, rfl⟩ := heq
      exact h n hn
  rw [hmin]
  simp only [hmem]
  by_cases hloop : u = w ∧ u ∈ q.seeds
  · rw [if_pos hloop]
    constructor
    · exact fun h => Nat.le_zero.1 (h.2 0 (Or.inl ⟨rfl, hloop⟩))
    · rintro rfl
      exact ⟨Or.inl ⟨rfl, hloop⟩, fun n _ => Nat.zero_le n⟩
  · rw [if_neg hloop, arrive_eq_some_iff]
    constructor
    · rintro ⟨⟨-, h⟩ | ⟨k, hk, rfl, hr, hop⟩, hle⟩
      · exact absurd h hloop
      · refine ⟨hop, k, hk, rfl, hr, fun n hn => ?_⟩
        by_cases hn' : n < q.maxHops
        · have := hle (n + 1) (Or.inr ⟨n, hn', rfl, hn, hop⟩)
          omega
        · omega
    · rintro ⟨hop, k, hk, rfl, hr, hle⟩
      refine ⟨Or.inr ⟨k, hk, rfl, hr, hop⟩, ?_⟩
      rintro n (⟨-, h⟩ | ⟨m, -, rfl, hm, -⟩)
      · exact absurd h hloop
      · have := hle m hm
        omega

theorem found_eq {rows : List (Option String × Option String × ℕ)}
    (hmem : ∀ u w d, (some u, some w, d) ∈ rows ↔ d = 0 ∧ u = w ∧ u ∈ q.seeds ∨
      ∃ k < q.maxHops, d = k + 1 ∧ Reached T q k u ∧ HopRel T q.direction q.edgeType (some u) (some w))
    (e : ε) : ((gtMin rows).filter fun m => joinsEdge T m e).map Prod.snd = found T q e := by
  classical
  have hnil : (∀ m ∈ gtMin rows, joinsEdge T m e = false) →
      ((gtMin rows).filter fun m => joinsEdge T m e).map Prod.snd = [] := by
    intro h
    rw [filter_eq_nil_iff.2 fun m hm => by simp [h m hm], map_nil]
  unfold found
  cases hs : T.src e with
  | none => exact hnil fun m _ => by simp [joinsEdge, hs]
  | some u =>
    cases hd : T.dst e with
    | none => exact hnil fun m _ => by simp [joinsEdge, hd]
    | some w =>
      have hjoin : ∀ m : (Option String × Option String) × ℕ, joinsEdge T m e = decide (m.1 = (some w, some u)) := by
        rintro ⟨⟨a, b⟩, d⟩
        rw [Bool.eq_iff_iff, decide_eq_true_eq]
        simp only [joinsEdge, hs, hd, Bool.and_eq_true, sqlEq_some, Prod.mk.injEq]
        constructor <;> rintro ⟨h₁, h₂⟩ <;> exact ⟨h₂.symm, h₁.symm⟩
      have hone : ∀ d, ((some w, some u), d) ∈ gtMin rows →
          ((gtMin rows).filter fun m => joinsEdge T m e).map Prod.snd = [d] := by
        intro d h
        simp only [hjoin]
        rw [filter_key_eq (nodup_gtMin rows) h]
        rfl
      have hnone : (∀ d, ((some w, some u), d) ∉ gtMin rows) →
          ((gtMin rows).filter fun m => joinsEdge T m e).map Prod.snd = [] := by
        refine fun h => hnil ?_
        rintro ⟨k, d⟩ hm
        rw [hjoin, decide_eq_false_iff_not]
        rintro rfl
        exact h d hm
      simp only [mem_gtMin_iff hmem] at hone hnone
      by_cases hloop : u = w ∧ u ∈ q.seeds
      · simp only [if_pos hloop] at hone ⊢
        exact hone 0 rfl
      · simp only [if_neg hloop] at hone hnone ⊢
        by_cases hop : HopRel T q.direction q.edgeType (some u) (some w)
        · rw [if_pos hop]
          cases ha : arrive T q u with
          | some d => exact hone d ⟨hop, ha⟩
          | none => exact hnone fun d h => by simp [ha] at h
        · rw [if_neg hop]
          exact hnone fun d h => hop h.1

theorem exists_gtResult {fuel : ℕ} (hfuel : q.maxHops < fuel) :
    ∃ rows, gtResult T q fuel = some rows ∧ rows.Perm (T.rows.flatMap fun e => (found T q e).map fun d => (e, d)) := by
  obtain ⟨rows, hrows, hmem⟩ := exists_gtRows (T := T) hfuel
  refine ⟨_, by rw [gtResult, hrows, Option.map_some], ?_⟩
  refine ((innerJoin_swap _ _ _).map _).trans (List.Perm.of_eq ?_)
  rw [innerJoin, map_flatMap, map_flatMap]
  refine flatMap_congr fun e _ => ?_
  rw [← found_eq hmem e]
  simp only [map_map]
  rfl

end Found

section Right

variable {ε : Type} {T : EdgeTable ε} {q : Traverse}

theorem zero_notMem_arrivals (e : ε) : 0 ∉ arrivals T q e := by
  unfold arrivals
  split_ifs with ht
  · simp only [mem_filterMap, not_exists, not_and]
    exact fun _ _ => arrive_ne_zero
  · simp

variable {u : String}

theorem not_perm_of_loop {e : ε} {w : String} (hs : T.src e = some u) (hd : T.dst e = some w)
    (hloop : u = w ∧ u ∈ q.seeds) : ¬ (found T q e).Perm (arrivals T q e) := by
  intro h
  have h0 : 0 ∈ found T q e := by
    unfold found
    simp only [hs, hd, if_pos hloop, mem_singleton]
  exact zero_notMem_arrivals e (h.mem_iff.1 h0)

theorem found_of_not_loop {e : ε} {w : String} (hs : T.src e = some u) (hd : T.dst e = some w)
    (hloop : ¬ (u = w ∧ u ∈ q.seeds)) : (HopRel T q.direction q.edgeType (some u) (some w) ∧
        found T q e = (arrive T q u).toList) ∨
      (¬ HopRel T q.direction q.edgeType (some u) (some w) ∧ found T q e = []) := by
  by_cases hop : HopRel T q.direction q.edgeType (some u) (some w)
  · exact Or.inl ⟨hop, by unfold found; simp [hs, hd, hloop, hop]⟩
  · exact Or.inr ⟨hop, by unfold found; simp [hs, hd, hloop, hop]⟩

theorem perm_of_null {e : ε} (h : T.src e = none ∨ T.dst e = none) :
    (found T q e).Perm (arrivals T q e) ∧ JoinsBack T q e := by
  have hways : ways T q.direction e = [] := by
    unfold ways
    rcases h with h | h
    · simp [h]
    · cases hs : T.src e <;> simp [h]
  have hfound : found T q e = [] := by
    unfold found
    rcases h with h | h
    · simp [h]
    · cases hs : T.src e <;> simp [h]
  refine ⟨by simp [hfound, arrivals, hways], ?_⟩
  intro u w hs hd
  rcases h with h | h
  · simp [h] at hs
  · simp [h] at hd

theorem null_or_ends (e : ε) : (T.src e = none ∨ T.dst e = none) ∨ ∃ u w, T.src e = some u ∧ T.dst e = some w := by
  cases hs : T.src e with
  | none => exact Or.inl (Or.inl rfl)
  | some u =>
    cases hd : T.dst e with
    | none => exact Or.inl (Or.inr rfl)
    | some w => exact Or.inr ⟨u, w, rfl, rfl⟩

theorem perm_iff_forward (hdir : q.direction = .forward) {e : ε} (he : e ∈ T.rows) :
    (found T q e).Perm (arrivals T q e) ↔ JoinsBack T q e := by
  rcases null_or_ends (T := T) e with hnull | ⟨u, w, hs, hd⟩
  · exact iff_of_true (perm_of_null hnull).1 (perm_of_null hnull).2
  · have hhop : HopRel T q.direction q.edgeType (some u) (some w) ↔ ∃ e' ∈ T.rows,
        typeFilter T q.edgeType e' = true ∧ T.src e' = some u ∧ T.dst e' = some w := by
      simp [hopRel_iff_ways, mem_ways_iff, hdir]
    have harr : arrivals T q e = if typeFilter T q.edgeType e = true then (arrive T q u).toList else [] := by
      unfold arrivals ways
      cases ha : arrive T q u <;> simp [hs, hd, hdir, ha]
    have hjoins : JoinsBack T q e ↔ ¬ (u = w ∧ u ∈ q.seeds) ∧ ((∃ d, arrive T q u = some d) →
        HopRel T q.direction q.edgeType (some u) (some w) → typeFilter T q.edgeType e = true) := by
      rw [hhop]
      simp [JoinsBack, hs, hd, hdir, exists_arrive_iff]
    rw [hjoins]
    by_cases hloop : u = w ∧ u ∈ q.seeds
    · exact iff_of_false (not_perm_of_loop hs hd hloop) fun h => h.1 hloop
    · rw [harr]
      by_cases ht : typeFilter T q.edgeType e = true
      · have hop := hhop.2 ⟨e, he, ht, hs, hd⟩
        rcases found_of_not_loop hs hd hloop with ⟨-, hf⟩ | ⟨hno, -⟩
        · rw [hf, if_pos ht]
          exact iff_of_true (List.Perm.refl _) ⟨hloop, fun _ _ => ht⟩
        · exact absurd hop hno
      · rw [if_neg ht, perm_nil]
        rcases found_of_not_loop hs hd hloop with ⟨hop, hf⟩ | ⟨hno, hf⟩
        · rw [hf]
          cases ha : arrive T q u with
          | none => simp [hloop]
          | some d => simp [hop, ht]
        · rw [hf]
          exact iff_of_true rfl ⟨hloop, fun _ hop => absurd hop hno⟩

theorem mem_seeds_of_backward (hdir : q.direction = .backward) (hpos : 0 < q.maxHops)
    (h : ∀ e ∈ T.rows, JoinsBack T q e) {k : ℕ} (hr : Reached T q k u) :
    u ∈ q.seeds := by
  obtain ⟨s, hs, hw⟩ := hr
  have key : ∀ {k : ℕ} {v : Option String}, Walk (HopRel T q.direction q.edgeType) (some s) k v →
      ∀ x, v = some x → x ∈ q.seeds := by
    intro k v hw
    induction hw with
    | nil =>
      rintro x hx
      obtain rfl := Option.some_inj.1 hx
      exact hs
    | @snoc n v w hw hop ih =>
      rintro x rfl
      cases v with
      | none => exact absurd hop not_hopRel_none
      | some y =>
        obtain ⟨e, he, ht, hway⟩ := hopRel_iff_ways.1 hop
        rw [mem_ways_iff, hdir] at hway
        obtain ⟨hde, hse⟩ : T.dst e = some y ∧ T.src e = some x := by simpa using hway
        have hj := (h e he x y hse hde).2
        simp only [hdir] at hj
        exact ((hj hpos).1 ⟨ht, ih y rfl⟩).1
  exact key hw u rfl

theorem perm_iff_backward (hdir : q.direction = .backward) :
    (∀ e ∈ T.rows, (found T q e).Perm (arrivals T q e)) ↔ ∀ e ∈ T.rows, JoinsBack T q e := by
  have hhop : ∀ u w, HopRel T q.direction q.edgeType (some u) (some w) ↔ ∃ e' ∈ T.rows,
      typeFilter T q.edgeType e' = true ∧ T.src e' = some w ∧ T.dst e' = some u := by
    intro u w
    simp only [hopRel_iff_ways, mem_ways_iff, hdir]
    simp [and_comm]
  have harr : ∀ e u w, T.src e = some u → T.dst e = some w → arrivals T q e =
      if typeFilter T q.edgeType e = true then (arrive T q w).toList else [] := by
    intro e u w hs hd
    unfold arrivals ways
    cases ha : arrive T q w <;> simp [hs, hd, hdir, ha]
  constructor
  · intro h e he u w hs hd
    have hp := h e he
    have hloop : ¬ (u = w ∧ u ∈ q.seeds) := fun hl => not_perm_of_loop hs hd hl hp
    refine ⟨hloop, ?_⟩
    simp only [hdir]
    intro hpos
    rw [harr e u w hs hd] at hp
    rw [← hhop u w]
    constructor
    · -- a typed edge into a seed has depth 1, so the join found it at depth 1
      rintro ⟨ht, hw⟩
      rw [if_pos ht, arrive_eq_one_iff.2 ⟨hpos, hw⟩, Option.toList_some, perm_singleton] at hp
      rcases found_of_not_loop hs hd hloop with ⟨hop, hf⟩ | ⟨-, hf⟩
      · have ha : arrive T q u = some 1 := by
          rw [hf] at hp
          simpa [Option.toList_eq_singleton_iff] using hp
        exact ⟨(arrive_eq_one_iff.1 ha).2, hop⟩
      · simp [hf] at hp
    · -- the join finds this edge at depth 1, so it is typed and ends at a seed
      rintro ⟨hu, hop⟩
      rcases found_of_not_loop hs hd hloop with ⟨-, hf⟩ | ⟨hno, -⟩
      · rw [hf, arrive_eq_one_iff.2 ⟨hpos, hu⟩, Option.toList_some, singleton_perm] at hp
        by_cases ht : typeFilter T q.edgeType e = true
        · rw [if_pos ht] at hp
          have ha : arrive T q w = some 1 := by
            simpa [Option.toList_eq_singleton_iff] using hp.symm
          exact ⟨ht, (arrive_eq_one_iff.1 ha).2⟩
        · simp [ht] at hp
      · exact absurd hop hno
  · intro h e he
    rcases null_or_ends (T := T) e with hnull | ⟨u, w, hs, hd⟩
    · exact (perm_of_null hnull).1
    · obtain ⟨hloop, hj⟩ := h e he u w hs hd
      simp only [hdir] at hj
      have hone : ∀ x, arrive T q x = if 0 < q.maxHops ∧ x ∈ q.seeds then some 1 else none := by
        intro x
        split_ifs with hx
        · exact arrive_eq_one_iff.2 hx
        · rw [Option.eq_none_iff_forall_ne_some]
          intro d hdx
          obtain ⟨k, hlt, -, hr, -⟩ := arrive_eq_some_iff.1 hdx
          exact hx ⟨by omega, mem_seeds_of_backward hdir (by omega) h hr⟩
      rw [← hhop u w] at hj
      rw [harr e u w hs hd, hone w]
      rcases found_of_not_loop hs hd hloop with ⟨hop, hf⟩ | ⟨hno, hf⟩
      · rw [hf, hone u]
        refine List.Perm.of_eq ?_
        by_cases hpos : 0 < q.maxHops
        · have hj := hj hpos
          by_cases hu : u ∈ q.seeds
          · obtain ⟨ht, hw⟩ := hj.2 ⟨hu, hop⟩
            simp [hpos, hu, ht, hw]
          · by_cases ht : typeFilter T q.edgeType e = true
            · have hw : w ∉ q.seeds := fun hw => hu (hj.1 ⟨ht, hw⟩).1
              simp [hu, hw]
            · simp [hu, ht]
        · simp [hpos]
      · rw [hf]
        refine List.Perm.of_eq ?_
        by_cases hx : 0 < q.maxHops ∧ w ∈ q.seeds
        · have ht : ¬ typeFilter T q.edgeType e = true := fun ht => hno ((hj hx.1).1 ⟨ht, hx.2⟩).2
          simp [ht]
        · simp [hx]

theorem mem_seeds_of_both (hdir : q.direction = .both) (h : ∀ e ∈ T.rows, JoinsBack T q e) {k : ℕ}
    (hlt : k < q.maxHops) (hr : Reached T q k u) : u ∈ q.seeds := by
  obtain ⟨s, hs, hw⟩ := hr
  -- with more than one hop, the first one would use an edge at a seed
  have hstuck : 1 < q.maxHops → ∀ x, ¬ HopRel T q.direction q.edgeType (some s) (some x) := by
    intro hone x hop
    obtain ⟨e, he, ht, hway⟩ := hopRel_iff_ways.1 hop
    rw [mem_ways_iff] at hway
    rcases hway with ⟨-, hse, hde⟩ | ⟨-, hde, hse⟩
    · have hj := (h e he s x hse hde).2
      simp only [hdir] at hj
      exact ((hj (by omega)).1 ht).2 hone hs
    · have hj := (h e he x s hse hde).2
      simp only [hdir] at hj
      exact ((hj (by omega)).1 ht).1 hs
  have key : ∀ {m : ℕ} {v : Option String}, 1 < q.maxHops →
      Walk (HopRel T q.direction q.edgeType) (some s) m v → m = 0 ∧ v = some s ∨ v = none := by
    intro m v hone hw
    induction hw with
    | nil => exact Or.inl ⟨rfl, rfl⟩
    | @snoc n v w _ hop ih =>
      rcases ih with ⟨-, rfl⟩ | rfl
      · cases w with
        | none => exact Or.inr rfl
        | some x => exact absurd hop (hstuck hone x)
      · exact absurd hop not_hopRel_none
  cases k with
  | zero =>
    cases hw
    exact hs
  | succ k =>
    rcases key (by omega) hw with ⟨h0, -⟩ | hnone
    · omega
    · simp at hnone

theorem perm_iff_both (hdir : q.direction = .both) :
    (∀ e ∈ T.rows, (found T q e).Perm (arrivals T q e)) ↔ ∀ e ∈ T.rows, JoinsBack T q e := by
  have hhop : ∀ {e u w}, e ∈ T.rows → typeFilter T q.edgeType e = true → T.src e = some u →
      T.dst e = some w → HopRel T q.direction q.edgeType (some u) (some w) := by
    intro e u w he ht hs hd
    rw [hopRel_iff_ways]
    exact ⟨e, he, ht, mem_ways_iff.2 (Or.inl ⟨by simp [hdir], hs, hd⟩)⟩
  have harr : ∀ {e u w}, T.src e = some u → T.dst e = some w → arrivals T q e =
      if typeFilter T q.edgeType e = true then
        if u = w then (arrive T q u).toList else (arrive T q u).toList ++ (arrive T q w).toList
      else [] := by
    intro e u w hs hd
    unfold arrivals ways
    by_cases huw : u = w
    · cases ha : arrive T q u <;> simp [hs, hd, hdir, ← huw, ha]
    · cases ha : arrive T q u <;> cases hb : arrive T q w <;> simp [hs, hd, hdir, huw, ha, hb]
  constructor
  · intro h e he u w hs hd
    have hp := h e he
    have hloop : ¬ (u = w ∧ u ∈ q.seeds) := fun hl => not_perm_of_loop hs hd hl hp
    refine ⟨hloop, ?_⟩
    simp only [hdir]
    rw [harr hs hd] at hp
    -- a typed edge that is no self-loop is not followed from its destination
    have hdst : typeFilter T q.edgeType e = true → u ≠ w → arrive T q w = none := by
      intro ht huw
      rcases found_of_not_loop hs hd hloop with ⟨-, hf⟩ | ⟨hno, -⟩
      · rw [hf, if_pos ht, if_neg huw] at hp
        have hlen := hp.length_eq
        rw [length_append] at hlen
        cases ha : arrive T q w with
        | none => rfl
        | some d => simp [ha] at hlen
      · exact absurd (hhop he ht hs hd) hno
    refine fun hpos => ⟨fun ht => ⟨fun hw => ?_, fun hone hu => ?_⟩, ?_⟩
    · have huw : u ≠ w := fun huw => hloop ⟨huw, huw ▸ hw⟩
      have h1 := (arrive_eq_one_iff (T := T)).2 ⟨hpos, hw⟩
      simp [hdst ht huw] at h1
    · have huw : u ≠ w := fun huw => hloop ⟨huw, hu⟩
      obtain ⟨d, hd'⟩ := exists_arrive_iff.2 ⟨1, hone, (reached_zero.2 hu).succ (hhop he ht hs hd)⟩
      simp [hdst ht huw] at hd'
    · rintro hu ⟨e', he', ht', hs', hd'⟩
      by_contra ht
      rcases found_of_not_loop hs hd hloop with ⟨-, hf⟩ | ⟨hno, -⟩
      · rw [hf, arrive_eq_one_iff.2 ⟨hpos, hu⟩, if_neg ht] at hp
        simp at hp
      · exact hno (hhop he' ht' hs' hd')
  · intro h e he
    rcases null_or_ends (T := T) e with hnull | ⟨u, w, hs, hd⟩
    · exact (perm_of_null hnull).1
    · obtain ⟨hloop, hj⟩ := h e he u w hs hd
      simp only [hdir] at hj
      have hseed : ∀ x d, arrive T q x = some d → 0 < q.maxHops ∧ x ∈ q.seeds := by
        intro x d hx
        obtain ⟨k, hlt, -, hr, -⟩ := arrive_eq_some_iff.1 hx
        exact ⟨by omega, mem_seeds_of_both hdir h hlt hr⟩
      rw [harr hs hd]
      by_cases ht : typeFilter T q.edgeType e = true
      · have hw : u = w ∨ arrive T q w = none := by
          rw [or_iff_not_imp_left, Option.eq_none_iff_forall_ne_some]
          rintro - d hd'
          obtain ⟨hpos, hw⟩ := hseed w d hd'
          exact ((hj hpos).1 ht).1 hw
        rcases found_of_not_loop hs hd hloop with ⟨-, hf⟩ | ⟨hno, -⟩
        · rw [hf, if_pos ht]
          rcases hw with huw | hw
          · rw [if_pos huw]
          · rw [hw, Option.toList_none, append_nil, ite_self]
        · exact absurd (hhop he ht hs hd) hno
      · rw [if_neg ht, perm_nil]
        rcases found_of_not_loop hs hd hloop with ⟨hop, hf⟩ | ⟨-, hf⟩
        · rw [hf]
          cases ha : arrive T q u with
          | none => rfl
          | some d =>
            -- the hop used a typed edge between the same nodes: parallel, or into the seed
            obtain ⟨hpos, hu⟩ := hseed u d ha
            obtain ⟨e', he', ht', hway⟩ := hopRel_iff_ways.1 hop
            rw [mem_ways_iff] at hway
            rcases hway with ⟨-, hs', hd'⟩ | ⟨-, hd', hs'⟩
            · exact absurd ((hj hpos).2 hu ⟨e', he', ht', hs', hd'⟩) ht
            · have hj' := (h e' he' w u hs' hd').2
              simp only [hdir] at hj'
              exact absurd hu ((hj' hpos).1 ht').1
        · exact hf

end Right

/-- **The operator returns the traversed edges exactly when every edge joins back.**  The recursion
always ends. -/
theorem traverse_iff {ε : Type} (T : EdgeTable ε) (q : Traverse) {fuel : ℕ}
    (hfuel : q.maxHops < fuel) : ∃ rows, gtResult T q fuel = some rows ∧
      (rows.Perm (traversed T q) ↔ ∀ e ∈ T.rows, JoinsBack T q e) := by
  obtain ⟨rows, hrows, hperm⟩ := exists_gtResult (T := T) hfuel
  refine ⟨rows, hrows, ?_⟩
  rw [hperm.congr_left, traversed, perm_flatMap_iff]
  cases hdir : q.direction with
  | forward => exact forall₂_congr fun e he => perm_iff_forward hdir he
  | backward => exact perm_iff_backward hdir
  | both => exact perm_iff_both hdir

/-- A path and a parallel edge, walked forwards: all of them are of the type asked for. -/
theorem traverse_iff_path : 2 < 3 ∧ ∃ rows, gtResult (ofEdges [("a", "b", "t"), ("b", "c", "t"), ("a", "b", "t")])
        ⟨["a"], 2, .forward, some "t"⟩ 3 = some rows ∧
      (rows.Perm (traversed (ofEdges [("a", "b", "t"), ("b", "c", "t"), ("a", "b", "t")])
          ⟨["a"], 2, .forward, some "t"⟩) ↔ ∀ e ∈ (ofEdges [("a", "b", "t"), ("b", "c", "t"), ("a", "b", "t")]).rows,
          JoinsBack (ofEdges [("a", "b", "t"), ("b", "c", "t"), ("a", "b", "t")]) ⟨["a"], 2, .forward, some "t"⟩ e) :=
  ⟨by decide, traverse_iff _ _ (by decide)⟩

/-- **Walking backwards the edge is lost**: the hop led from `b` to `a`, and the join looks for an
edge from `b` to `a`. -/
theorem traverse_loses_edge : gtResult (ofEdges [("a", "b", "t")]) ⟨["b"], 1, .backward, none⟩ 2 = some [] ∧
      (("a", "b", "t"), 1) ∈ traversed (ofEdges [("a", "b", "t")]) ⟨["b"], 1, .backward, none⟩ := by
  refine ⟨by decide, ?_⟩
  have ha : arrive (ofEdges [("a", "b", "t")]) ⟨["b"], 1, .backward, none⟩ "b" = some 1 :=
    arrive_eq_one_iff.2 (by decide)
  rw [traversed, mem_flatMap]
  refine ⟨("a", "b", "t"), mem_singleton_self _, ?_⟩
  rw [mem_map]
  refine ⟨1, ?_, rfl⟩
  have hways : ways (ofEdges [("a", "b", "t")]) .backward ("a", "b", "t") = [("b", "a")] := rfl
  simp [arrivals, typeFilter, hways, ha]

end KqlGraph
