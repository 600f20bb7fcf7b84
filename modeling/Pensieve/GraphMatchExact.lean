/-
**When `graph-match` is exact.**

A match gives a row to every variable; the joins give a row to every place where a node is named.
The one spreads out to the other: a place gets the row of the variable that is written there.
-/

import Pensieve.GraphMatch

namespace KqlGraph

open List
open SqlJoin JoinQuery

section Conditions

variable {edges : List EdgePat}

theorem mem_matchNames {d : MatchVar × TableRef} : d ∈ matchNames edges ↔ ∃ j e, edges[j]? = some e ∧
      (d = (.edge j, .edges) ∨ d = (.node e.src, .nodes) ∨ d = (.node e.dst, .nodes)) := by
  simp only [matchNames, mem_flatMap, Prod.exists, mem_zipIdx_iff_getElem?]
  constructor
  · rintro ⟨e, j, he, hd⟩
    exact ⟨j, e, he, by simpa using hd⟩
  · rintro ⟨j, e, he, hd⟩
    exact ⟨e, j, he, by simpa using hd⟩

theorem mem_matchConds {c : Cond MatchVar GraphCol} : c ∈ matchConds edges ↔ ∃ j e, edges[j]? = some e ∧
      (c = srcCond (.edge j) (.node e.src) ∨ c = dstCond (.edge j) (.node e.dst) ∨
        ∃ t, e.etype = some t ∧ c = .is (.edge j) .etype t) := by
  simp only [matchConds, mem_flatMap, Prod.exists, mem_zipIdx_iff_getElem?,
    mem_append, mem_cons, not_mem_nil, or_false, mem_map, Option.mem_toList]
  constructor
  · rintro ⟨e, j, he, (hc | hc) | ⟨t, ht, rfl⟩⟩
    · exact ⟨j, e, he, Or.inl hc⟩
    · exact ⟨j, e, he, Or.inr (Or.inl hc)⟩
    · exact ⟨j, e, he, Or.inr (Or.inr ⟨t, ht, rfl⟩)⟩
  · rintro ⟨j, e, he, hc | hc | ⟨t, ht, rfl⟩⟩
    · exact ⟨e, j, he, Or.inl (Or.inl hc)⟩
    · exact ⟨e, j, he, Or.inl (Or.inr hc)⟩
    · exact ⟨e, j, he, Or.inr ⟨t, ht, rfl⟩⟩

theorem mem_typeConds (hopt : ∀ e ∈ edges, e.optional = false) {c : Cond Alias GraphCol} :
    c ∈ typeConds edges ↔ ∃ j e, edges[j]? = some e ∧ ∃ t, e.etype = some t ∧ c = .is (.edge j) .etype t := by
  simp only [typeConds, mem_flatMap, Prod.exists, mem_zipIdx_iff_getElem?]
  constructor
  · rintro ⟨e, j, he, hc⟩
    rw [hopt e (mem_of_getElem? he), if_neg Bool.false_ne_true, mem_map] at hc
    obtain ⟨t, ht, rfl⟩ := hc
    exact ⟨j, e, he, t, by simpa using ht, rfl⟩
  · rintro ⟨j, e, he, t, ht, rfl⟩
    refine ⟨e, j, he, ?_⟩
    rw [hopt e (mem_of_getElem? he), if_neg Bool.false_ne_true, mem_map]
    exact ⟨t, by simpa using ht, rfl⟩

end Conditions

/-! ### Places -/

/-- **The places of a pattern**: `names` are the variables of the nodes that are joined, `indexed` the
edges over the positions in `names`. -/
structure Places (names : List String) (edges : List EdgePat) (indexed : List IndexedEdge) : Prop where
  length_eq : indexed.length = edges.length
  ends : ∀ (j : ℕ) (e : EdgePat) (x : IndexedEdge), edges[j]? = some e → indexed[j]? = some x →
    names[x.src]? = some e.src ∧ names[x.dst]? = some e.dst
  touched : ∀ i < names.length, Touches indexed i
  mandatory : ∀ e ∈ edges, e.optional = false
  inner : ∀ x ∈ indexed, x.optional = false

def DstJoined (indexed : List IndexedEdge) : Prop :=
  ∀ (j : ℕ) (x : IndexedEdge), indexed[j]? = some x → j = 0 ∨ x.dst ≠ x.src ∨ Touches (indexed.take j) x.dst

def StartsApart (indexed : List IndexedEdge) : Prop := ∀ x, indexed[0]? = some x → x.src ≠ x.dst

section Spread

variable {R : Type} {names : List String}

/-- **A match as an assignment to places.** -/
def spread (names : List String) (a : Env MatchVar R) : Env Alias R
  | .node i => names[i]?.bind fun v => a (.node v)
  | .edge j => a (.edge j)

/-- **Back**: a variable gets the row of its first place. -/
def gather (names : List String) (env : Env Alias R) : Env MatchVar R
  | .node v => env (.node (names.idxOf v))
  | .edge j => env (.edge j)

theorem spread_node {a : Env MatchVar R} {i : ℕ} {v : String} (h : names[i]? = some v) :
    spread names a (.node i) = a (.node v) := by
  simp [spread, h]

@[simp] theorem spread_edge (a : Env MatchVar R) (j : ℕ) : spread names a (.edge j) = a (.edge j) := rfl

@[simp] theorem gather_edge (env : Env Alias R) (j : ℕ) : gather names env (.edge j) = env (.edge j) := rfl

theorem gather_node (hnd : names.Nodup) {env : Env Alias R} {i : ℕ} {v : String}
    (h : names[i]? = some v) : gather names env (.node v) = env (.node i) := by
  obtain ⟨hi, rfl⟩ := List.getElem?_eq_some_iff.1 h
  rw [gather, hnd.idxOf_getElem i hi]

variable {T C : Type} {S : Store T R C}

theorem holds_same_congr {A B : Type} {env : Env A R} {env' : Env B R} {a b : A} {a' b' : B} {c d : C}
    (ha : env a = env' a') (hb : env b = env' b') :
    (Cond.same a c b d).holds S env = (Cond.same a' c b' d).holds S env' := by
  simp only [Cond.holds, JoinQuery.get, ha, hb]

theorem holds_is_congr {A B : Type} {env : Env A R} {env' : Env B R} {a : A} {a' : B} {c : C}
    (ha : env a = env' a') (t : String) : (Cond.is a c t).holds S env = (Cond.is a' c t).holds S env' := by
  simp only [Cond.holds, JoinQuery.get, ha]

end Spread

section Reading

variable {A ν ε : Type} {E : EdgeTable ε} {N : NodeTable ν} {env : Env A (RowRef E N)} {a b : A}
  {k : Fin E.rows.length} {l : Fin N.rows.length}

theorem holds_srcCond (ha : env a = some (.inl k)) (hb : env b = some (.inr l)) :
    (srcCond a b).holds (graphStore E N) env = sqlEq (E.src (E.rows.get k)) (N.id (N.rows.get l)) := by
  simp only [srcCond, Cond.holds, JoinQuery.get, ha, hb]
  rfl

theorem holds_dstCond (ha : env a = some (.inl k)) (hb : env b = some (.inr l)) :
    (dstCond a b).holds (graphStore E N) env = sqlEq (E.dst (E.rows.get k)) (N.id (N.rows.get l)) := by
  simp only [dstCond, Cond.holds, JoinQuery.get, ha, hb]
  rfl

theorem holds_typeCond (ha : env a = some (.inl k)) (t : String) : (Cond.is a .etype t).holds (graphStore E N) env =
      sqlEq (E.etype (E.rows.get k)) (some t) := by
  simp only [Cond.holds, JoinQuery.get, ha]
  rfl

end Reading

section Exact

variable {ν ε : Type} {E : EdgeTable ε} {N : NodeTable ν} {names : List String}
  {edges : List EdgePat} {indexed : List IndexedEdge}

def IsJoined (E : EdgeTable ε) (N : NodeTable ν) (edges : List EdgePat) (indexed : List IndexedEdge)
    (env : Env Alias (RowRef E N)) : Prop :=
  IsSolution (graphStore E N) (decls (indexJoins indexed)) (conds (indexJoins indexed) ++ typeConds edges) env

theorem Places.getElem?_of_indexed (hp : Places names edges indexed) {j : ℕ} {x : IndexedEdge}
    (hx : indexed[j]? = some x) : ∃ e, edges[j]? = some e ∧ names[x.src]? = some e.src ∧
      names[x.dst]? = some e.dst := by
  have hj : j < edges.length := hp.length_eq ▸ (List.getElem?_eq_some_iff.1 hx).1
  exact ⟨edges[j], getElem?_eq_getElem hj, hp.ends j _ x (getElem?_eq_getElem hj) hx⟩

theorem Places.getElem?_of_edge (hp : Places names edges indexed) {j : ℕ} {e : EdgePat}
    (he : edges[j]? = some e) : ∃ x, indexed[j]? = some x ∧ names[x.src]? = some e.src ∧
      names[x.dst]? = some e.dst := by
  have hj : j < indexed.length := hp.length_eq ▸ (List.getElem?_eq_some_iff.1 he).1
  exact ⟨indexed[j], getElem?_eq_getElem hj, hp.ends j e _ he (getElem?_eq_getElem hj)⟩

theorem isSolution_spread (hp : Places names edges indexed) {a : Env MatchVar (RowRef E N)}
    (ha : IsMatch E N edges a) : IsJoined E N edges indexed (spread names a) := by
  obtain ⟨hbound, hunbound, hholds⟩ := ha
  refine ⟨fun d hd => ?_, fun q hq => ?_, fun c hc => ?_⟩
  · rcases mem_decls_indexJoins.1 hd with ⟨k, hk, rfl⟩ | ⟨i, ⟨x, hx, hi⟩, rfl⟩
    · rw [hp.length_eq] at hk
      exact hbound (.edge k, .edges) (mem_matchNames.2 ⟨k, _, getElem?_eq_getElem hk, Or.inl rfl⟩)
    · obtain ⟨j, hj⟩ := getElem?_of_mem hx
      obtain ⟨e, he, hsrc, hdst⟩ := hp.getElem?_of_indexed hj
      rcases hi with rfl | rfl
      · rw [spread_node hsrc]
        exact hbound (.node e.src, .nodes) (mem_matchNames.2 ⟨j, e, he, Or.inr (Or.inl rfl)⟩)
      · rw [spread_node hdst]
        exact hbound (.node e.dst, .nodes) (mem_matchNames.2 ⟨j, e, he, Or.inr (Or.inr rfl)⟩)
  · cases q with
    | node i =>
      have hi : ¬ i < names.length := fun h => hq _
        (mem_decls_indexJoins.2 (Or.inr ⟨i, hp.touched i h, rfl⟩)) rfl
      simp [spread, getElem?_eq_none (Nat.le_of_not_lt hi)]
    | edge j =>
      refine hunbound _ fun d hd => ?_
      obtain ⟨k, e, he, rfl | rfl | rfl⟩ := mem_matchNames.1 hd
      · rintro h
        obtain rfl := MatchVar.edge.inj h
        have hk := (List.getElem?_eq_some_iff.1 he).1
        exact hq _ (mem_decls_indexJoins.2 (Or.inl ⟨k, hp.length_eq ▸ hk, rfl⟩)) rfl
      · exact nofun
      · exact nofun
  · rcases mem_append.1 hc with hc | hc
    · obtain ⟨j, x, hx, hc⟩ := (mem_conds_indexJoins hp.inner).1 hc
      obtain ⟨e, he, hsrc, hdst⟩ := hp.getElem?_of_indexed hx
      rcases hc with rfl | ⟨rfl, -⟩
      · rw [srcCond, holds_same_congr (spread_edge a j) (spread_node hsrc)]
        exact hholds _ (mem_matchConds.2 ⟨j, e, he, Or.inl rfl⟩)
      · rw [dstCond, holds_same_congr (spread_edge a j) (spread_node hdst)]
        exact hholds _ (mem_matchConds.2 ⟨j, e, he, Or.inr (Or.inl rfl)⟩)
    · obtain ⟨j, e, he, t, ht, rfl⟩ := (mem_typeConds hp.mandatory).1 hc
      rw [holds_is_congr (spread_edge a j)]
      exact hholds _ (mem_matchConds.2 ⟨j, e, he, Or.inr (Or.inr ⟨t, ht, rfl⟩)⟩)

theorem spread_injOn (hp : Places names edges indexed) {a a' : Env MatchVar (RowRef E N)}
    (ha : IsMatch E N edges a) (ha' : IsMatch E N edges a') (h : spread names a = spread names a') : a = a' := by
  funext q
  cases q with
  | edge j => exact congrFun h (.edge j)
  | node v =>
    by_cases hv : ∃ (j : ℕ) (e : EdgePat), edges[j]? = some e ∧ (e.src = v ∨ e.dst = v)
    · obtain ⟨j, e, he, hv⟩ := hv
      obtain ⟨x, -, hsrc, hdst⟩ := hp.getElem?_of_edge he
      rcases hv with rfl | rfl
      · simpa only [spread_node hsrc] using congrFun h (.node x.src)
      · simpa only [spread_node hdst] using congrFun h (.node x.dst)
    · -- a variable that no edge has stands for no row
      have hnone : ∀ d ∈ matchNames edges, d.1 ≠ .node v := by
        intro d hd
        obtain ⟨j, e, he, rfl | rfl | rfl⟩ := mem_matchNames.1 hd
        · exact nofun
        · exact fun heq => hv ⟨j, e, he, Or.inl (MatchVar.node.inj heq)⟩
        · exact fun heq => hv ⟨j, e, he, Or.inr (MatchVar.node.inj heq)⟩
      rw [ha.unbound _ hnone, ha'.unbound _ hnone]

theorem spread_gather (hp : Places names edges indexed) (hnd : names.Nodup)
    {env : Env Alias (RowRef E N)} (henv : IsJoined E N edges indexed env) :
    spread names (gather names env) = env := by
  funext q
  cases q with
  | edge j => rfl
  | node i =>
    by_cases hi : i < names.length
    · have hv := getElem?_eq_getElem hi
      rw [spread_node hv, gather_node hnd hv]
    · have hnone : env (.node i) = none := by
        refine henv.unbound _ fun d hd => ?_
        rcases mem_decls_indexJoins.1 hd with ⟨k, -, rfl⟩ | ⟨i', ⟨x, hx, hi'⟩, rfl⟩
        · exact nofun
        · intro heq
          obtain rfl := Alias.node.inj heq
          obtain ⟨j, hj⟩ := getElem?_of_mem hx
          obtain ⟨e, -, hsrc, hdst⟩ := hp.getElem?_of_indexed hj
          rcases hi' with rfl | rfl
          · exact hi (List.getElem?_eq_some_iff.1 hsrc).1
          · exact hi (List.getElem?_eq_some_iff.1 hdst).1
      simp [spread, getElem?_eq_none (Nat.le_of_not_lt hi), hnone]

/-- **A solution of the joins comes from a match**, if every variable has one place and every edge is
joined on both its ends. -/
theorem isMatch_gather (hp : Places names edges indexed) (hnd : names.Nodup)
    (hdst : DstJoined indexed) {env : Env Alias (RowRef E N)}
    (henv : IsJoined E N edges indexed env) : IsMatch E N edges (gather names env) := by
  obtain ⟨hbound, hunbound, hholds⟩ := henv
  refine ⟨fun d hd => ?_, fun q hq => ?_, fun c hc => ?_⟩
  · obtain ⟨j, e, he, hd⟩ := mem_matchNames.1 hd
    obtain ⟨x, hx, hs, ht⟩ := hp.getElem?_of_edge he
    have hmem := mem_of_getElem? hx
    rcases hd with rfl | rfl | rfl
    · exact hbound (.edge j, .edges) (mem_decls_indexJoins.2 (Or.inl ⟨j, (List.getElem?_eq_some_iff.1 hx).1, rfl⟩))
    · rw [gather_node hnd hs]
      exact hbound (.node x.src, .nodes) (mem_decls_indexJoins.2 (Or.inr ⟨x.src, ⟨x, hmem, Or.inl rfl⟩, rfl⟩))
    · rw [gather_node hnd ht]
      exact hbound (.node x.dst, .nodes) (mem_decls_indexJoins.2 (Or.inr ⟨x.dst, ⟨x, hmem, Or.inr rfl⟩, rfl⟩))
  · cases q with
    | edge j =>
      refine hunbound _ fun d hd => ?_
      rcases mem_decls_indexJoins.1 hd with ⟨k, hk, rfl⟩ | ⟨i, -, rfl⟩
      · intro heq
        obtain rfl := Alias.edge.inj heq
        rw [hp.length_eq] at hk
        exact hq _ (mem_matchNames.2 ⟨k, _, getElem?_eq_getElem hk, Or.inl rfl⟩) rfl
      · exact nofun
    | node v =>
      refine hunbound _ fun d hd => ?_
      rcases mem_decls_indexJoins.1 hd with ⟨k, hk, rfl⟩ | ⟨i, ⟨x, hx, hi⟩, rfl⟩
      · exact nofun
      · intro heq
        have hidx : i = names.idxOf v := Alias.node.inj heq
        obtain ⟨j, hj⟩ := getElem?_of_mem hx
        obtain ⟨e, he, hs, ht⟩ := hp.getElem?_of_indexed hj
        -- the place of `v` is at an edge, so `v` is at that edge
        have hplace : ∀ w, names[i]? = some w → w = v := by
          intro w hw
          have hlt := (List.getElem?_eq_some_iff.1 hw).1
          rw [hidx, getElem?_eq_getElem (hidx ▸ hlt), getElem_idxOf] at hw
          exact (Option.some_inj.1 hw).symm
        rcases hi with rfl | rfl
        · exact hq _ (mem_matchNames.2 ⟨j, e, he, Or.inr (Or.inl rfl)⟩) (congrArg MatchVar.node (hplace _ hs))
        · exact hq _ (mem_matchNames.2 ⟨j, e, he, Or.inr (Or.inr rfl)⟩) (congrArg MatchVar.node (hplace _ ht))
  · obtain ⟨j, e, he, hc⟩ := mem_matchConds.1 hc
    obtain ⟨x, hx, hs, ht⟩ := hp.getElem?_of_edge he
    rcases hc with rfl | rfl | ⟨t, hty, rfl⟩
    · rw [srcCond, holds_same_congr (gather_edge env j) (gather_node hnd hs)]
      refine hholds _ (mem_append_left _ ((mem_conds_indexJoins hp.inner).2 ⟨j, x, hx, ?_⟩))
      exact Or.inl rfl
    · rw [dstCond, holds_same_congr (gather_edge env j) (gather_node hnd ht)]
      refine hholds _ (mem_append_left _ ((mem_conds_indexJoins hp.inner).2 ⟨j, x, hx, ?_⟩))
      exact Or.inr ⟨rfl, hdst j x hx⟩
    · rw [holds_is_congr (gather_edge env j)]
      exact hholds _ (mem_append_right _ ((mem_typeConds hp.mandatory).2 ⟨j, e, he, t, hty, rfl⟩))

theorem mem_solve_indexJoins (hp : Places names edges indexed) (hloop : StartsApart indexed)
    {env : Env Alias (RowRef E N)} :
    env ∈ solve (graphStore E N) (indexJoins indexed) (typeConds edges) ↔ IsJoined E N edges indexed env :=
  mem_solve_iff (inScope_indexJoins hloop) (kind_indexJoins hp.inner) _ _

variable {γ : Type} {f : Env Alias (RowRef E N) → γ} {g : Env MatchVar (RowRef E N) → γ}

theorem enumerates_of_places (hp : Places names edges indexed) (hloop : StartsApart indexed)
    (hnd : names.Nodup) (hdst : DstJoined indexed) (hfg : ∀ a, IsMatch E N edges a → f (spread names a) = g a) :
    Enumerates (IsMatch E N edges) g ((solve (graphStore E N) (indexJoins indexed) (typeConds edges)).map f) := by
  refine enumerates_of_surjective (nodup_solve (inScope_indexJoins hloop) (kind_indexJoins hp.inner) _)
    (fun a a' => spread_injOn hp) (fun a ha => ?_) (fun env henv => ?_) hfg
  · exact (mem_solve_indexJoins hp hloop).2 (isSolution_spread hp ha)
  · have hjoined := (mem_solve_indexJoins hp hloop).1 henv
    exact ⟨gather names env, isMatch_gather hp hnd hdst hjoined, spread_gather hp hnd hjoined⟩

theorem exists_spread_of_enumerates (hp : Places names edges indexed) (hloop : StartsApart indexed)
    (h : Enumerates (IsMatch E N edges) g ((solve (graphStore E N) (indexJoins indexed) (typeConds edges)).map f))
    {env : Env Alias (RowRef E N)} (henv : IsJoined E N edges indexed env) :
    ∃ a, IsMatch E N edges a ∧ spread names a = env :=
  surjective_of_enumerates (fun _ _ => spread_injOn hp)
    (fun _ ha => (mem_solve_indexJoins hp hloop).2 (isSolution_spread hp ha)) h env
    ((mem_solve_indexJoins hp hloop).2 henv)

end Exact

section Full

variable {names : List String} {edges : List EdgePat} {indexed : List IndexedEdge}

def nodeId (b : Bool) : String := if b then "y" else "x"

theorem nodeId_inj {b b' : Bool} (h : nodeId b = nodeId b') : b = b' := by
  revert h
  cases b <;> cases b' <;> decide

def fullNodes : NodeTable Bool := ⟨[false, true], fun b => some (nodeId b)⟩

def fullEdges (edges : List EdgePat) : EdgeTable (Bool × Bool × Option String) where
  rows := edges.flatMap fun e =>
    [(false, false, e.etype), (false, true, e.etype), (true, false, e.etype), (true, true, e.etype)]
  src e := some (nodeId e.1)
  dst e := some (nodeId e.2.1)
  etype e := e.2.2

theorem mem_fullEdges {e : EdgePat} (he : e ∈ edges) (u w : Bool) : (u, w, e.etype) ∈ (fullEdges edges).rows := by
  refine mem_flatMap.2 ⟨e, he, ?_⟩
  cases u <;> cases w <;> simp

theorem uniqueIds_fullNodes : UniqueIds fullNodes := by
  constructor
  · decide
  · exact fun _ _ => rfl

/-- **In this graph the places can be given any rows**, and the edges any destination for which no
condition asks. -/
theorem exists_isJoined (hp : Places names edges indexed) (row last : ℕ → Bool)
    (hlast : ∀ (j : ℕ) (x : IndexedEdge), indexed[j]? = some x →
      (j = 0 ∨ x.dst ≠ x.src ∨ Touches (indexed.take j) x.dst) → last j = row x.dst) :
    ∃ env, IsJoined (fullEdges edges) fullNodes edges indexed env ∧
      (∀ i, Touches indexed i → ∃ k, env (.node i) = some (.inr k) ∧ fullNodes.rows.get k = row i) ∧
      ∀ (j : ℕ) (x : IndexedEdge), indexed[j]? = some x → ∃ k, env (.edge j) = some (.inl k) ∧
        ((fullEdges edges).rows.get k).1 = row x.src ∧ ((fullEdges edges).rows.get k).2.1 = last j := by
  classical
  have hnode : ∀ b, ∃ k, fullNodes.rows.get k = b := fun b =>
    mem_iff_get.1 (by cases b <;> decide)
  choose node hnode using hnode
  have hedge : ∀ j, ∃ o : Option (Fin (fullEdges edges).rows.length), (indexed[j]? = none → o = none) ∧
      ∀ (x : IndexedEdge) (e : EdgePat), indexed[j]? = some x → edges[j]? = some e →
        ∃ k, o = some k ∧ (fullEdges edges).rows.get k = (row x.src, last j, e.etype) := by
    intro j
    cases hx : indexed[j]? with
    | none => exact ⟨none, fun _ => rfl, nofun⟩
    | some x =>
      obtain ⟨e, he, -⟩ := hp.getElem?_of_indexed hx
      obtain ⟨k, hk⟩ := mem_iff_get.1 (mem_fullEdges (mem_of_getElem? he) (row x.src) (last j))
      refine ⟨some k, nofun, fun x' e' hx' he' => ⟨k, rfl, ?_⟩⟩
      rw [he] at he'
      rw [hk, Option.some_inj.1 hx', Option.some_inj.1 he']
  choose edge hnone hedge using hedge
  have hends : ∀ (j : ℕ) (x : IndexedEdge), indexed[j]? = some x →
      Touches indexed x.src ∧ Touches indexed x.dst := fun j x hx =>
    ⟨⟨x, mem_of_getElem? hx, Or.inl rfl⟩, ⟨x, mem_of_getElem? hx, Or.inr rfl⟩⟩
  let env : Env Alias (RowRef (fullEdges edges) fullNodes) := fun
    | .node i => if Touches indexed i then some (.inr (node (row i))) else none
    | .edge j => (edge j).map .inl
  have henvEdge : ∀ (j : ℕ) (x : IndexedEdge) (e : EdgePat), indexed[j]? = some x → edges[j]? = some e →
      ∃ k, env (.edge j) = some (.inl k) ∧ (fullEdges edges).rows.get k = (row x.src, last j, e.etype) := by
    intro j x e hx he
    obtain ⟨k, hk, hget⟩ := hedge j x e hx he
    exact ⟨k, by simp only [env, hk, Option.map_some], hget⟩
  have henvNode : ∀ i, Touches indexed i → env (.node i) = some (.inr (node (row i))) := fun i hi => if_pos hi
  have hnoneNode : ∀ i, ¬ Touches indexed i → env (.node i) = none := fun i hi => if_neg hi
  have hnoneEdge : ∀ j, indexed[j]? = none → env (.edge j) = none := fun j hj => by
    simp only [env, hnone j hj, Option.map_none]
  clear_value env
  refine ⟨env, ⟨fun d hd => ?_, fun q hq => ?_, fun c hc => ?_⟩, fun i hi => ?_, fun j x hx => ?_⟩
  · rcases mem_decls_indexJoins.1 hd with ⟨j, hj, rfl⟩ | ⟨i, hi, rfl⟩
    · obtain ⟨e, he, -⟩ := hp.getElem?_of_indexed (getElem?_eq_getElem hj)
      obtain ⟨k, hk, -⟩ := henvEdge j _ e (getElem?_eq_getElem hj) he
      exact ⟨.inl k, mem_map_of_mem (mem_finRange k), hk⟩
    · exact ⟨_, mem_map_of_mem (mem_finRange _), henvNode i hi⟩
  · cases q with
    | node i =>
      exact hnoneNode i fun hi => hq _ (mem_decls_indexJoins.2 (Or.inr ⟨i, hi, rfl⟩)) rfl
    | edge j =>
      exact hnoneEdge j (getElem?_eq_none (Nat.le_of_not_lt fun hj =>
        hq _ (mem_decls_indexJoins.2 (Or.inl ⟨j, hj, rfl⟩)) rfl))
  · rcases mem_append.1 hc with hc | hc
    · obtain ⟨j, x, hx, hc⟩ := (mem_conds_indexJoins hp.inner).1 hc
      obtain ⟨e, he, -⟩ := hp.getElem?_of_indexed hx
      obtain ⟨k, hk, hget⟩ := henvEdge j x e hx he
      obtain ⟨hs, ht⟩ := hends j x hx
      rcases hc with rfl | ⟨rfl, hjoined⟩
      · rw [holds_srcCond hk (henvNode _ hs), hget, hnode]
        exact sqlEq_some.2 rfl
      · rw [holds_dstCond hk (henvNode _ ht), hget, hnode, hlast j x hx hjoined]
        exact sqlEq_some.2 rfl
    · obtain ⟨j, e, he, t, ht, rfl⟩ := (mem_typeConds hp.mandatory).1 hc
      obtain ⟨x, hx, -⟩ := hp.getElem?_of_edge he
      obtain ⟨k, hk, hget⟩ := henvEdge j x e hx he
      rw [holds_typeCond hk, hget, ← ht]
      exact sqlEq_iff.2 ⟨by simp [fullEdges, ht], rfl⟩
  · exact ⟨_, henvNode i hi, hnode _⟩
  · obtain ⟨e, he, -⟩ := hp.getElem?_of_indexed hx
    obtain ⟨k, hk, hget⟩ := henvEdge j x e hx he
    exact ⟨k, hk, by rw [hget], by rw [hget]⟩

theorem nodup_of_spread (hp : Places names edges indexed)
    (hall : ∀ env, IsJoined (fullEdges edges) fullNodes edges indexed env →
      ∃ a, IsMatch (fullEdges edges) fullNodes edges a ∧ spread names a = env) : names.Nodup := by
  rw [nodup_iff_getElem?_ne_getElem?]
  intro i i' hlt hi' heq
  have hi : i < names.length := by omega
  -- the place `i` gets one node, all other places the other one
  obtain ⟨env, henv, hnode, -⟩ := exists_isJoined hp (fun k => decide (k = i))
    (fun j => (indexed[j]?).elim false fun x => decide (x.dst = i)) (fun j x hx _ => by simp [hx])
  obtain ⟨a, -, rfl⟩ := hall env henv
  obtain ⟨k, hk, hget⟩ := hnode i (hp.touched i hi)
  obtain ⟨k', hk', hget'⟩ := hnode i' (hp.touched i' hi')
  have hv := getElem?_eq_getElem hi
  rw [spread_node hv] at hk
  rw [spread_node (heq ▸ hv), hk, Option.some_inj, Sum.inr.injEq] at hk'
  rw [← hk', hget] at hget'
  simp only [decide_true, Bool.true_eq, decide_eq_true_eq] at hget'
  omega

theorem dstJoined_of_spread (hp : Places names edges indexed)
    (hall : ∀ env, IsJoined (fullEdges edges) fullNodes edges indexed env →
      ∃ a, IsMatch (fullEdges edges) fullNodes edges a ∧ spread names a = env) : DstJoined indexed := by
  intro j x hx
  by_contra hfree
  -- all places get one node, and the edge `j` ends at the other one
  obtain ⟨env, henv, hnode, hedge⟩ := exists_isJoined hp (fun _ => false) (fun k => decide (k = j)) (by
    intro j' x' hx' h
    have hne : j' ≠ j := by
      rintro rfl
      rw [hx, Option.some_inj] at hx'
      exact hfree (hx' ▸ h)
    exact decide_eq_false hne)
  obtain ⟨a, ha, rfl⟩ := hall env henv
  obtain ⟨e, he, -, ht⟩ := hp.getElem?_of_indexed hx
  obtain ⟨k, hk, -, hlast⟩ := hedge j x hx
  obtain ⟨l, hl, hrow⟩ := hnode x.dst ⟨x, mem_of_getElem? hx, Or.inr rfl⟩
  rw [spread_edge] at hk
  rw [spread_node ht] at hl
  have hholds := ha.holds _ (mem_matchConds.2 ⟨j, e, he, Or.inr (Or.inl rfl)⟩)
  rw [holds_dstCond hk hl] at hholds
  have hid := nodeId_inj (Option.some_inj.1 (sqlEq_some.1 hholds))
  rw [hrow, hlast] at hid
  simp at hid

end Full

section Builders

theorem ends_of_mem_hopEdges {o : Bool} {prev : String} {hs : List Hop} {e : EdgePat}
    (he : e ∈ hopEdges o prev hs) : e.src ∈ prev :: hs.map Hop.dst ∧ e.dst ∈ hs.map Hop.dst ∧ e.optional = o := by
  induction hs generalizing prev with
  | nil => simp [hopEdges] at he
  | cons h hs ih =>
    rw [hopEdges] at he
    rcases mem_cons.1 he with rfl | he
    · exact ⟨mem_cons_self, mem_cons_self, rfl⟩
    · obtain ⟨hsrc, hdst, ho⟩ := ih he
      exact ⟨mem_cons_of_mem _ hsrc, mem_cons_of_mem _ hdst, ho⟩

theorem exists_hopEdge_of_mem {o : Bool} {prev : String} {hs : List Hop} {v : String}
    (hv : v ∈ hs.map Hop.dst) : ∃ e ∈ hopEdges o prev hs, e.dst = v := by
  induction hs generalizing prev with
  | nil => simp at hv
  | cons h hs ih =>
    rw [hopEdges]
    rcases mem_cons.1 hv with rfl | hv
    · exact ⟨_, mem_cons_self, rfl⟩
    · obtain ⟨e, he, rfl⟩ := ih hv
      exact ⟨e, mem_cons_of_mem _ he, rfl⟩

theorem Chain.mem_nodes_iff {c : Chain} {o : Bool} {v : String} :
    v ∈ c.nodes ↔ ∃ e ∈ c.edges o, e.src = v ∨ e.dst = v := by
  constructor
  · intro hv
    rcases mem_cons.1 hv with rfl | hv
    · exact ⟨_, mem_cons_self, Or.inl rfl⟩
    · obtain ⟨e, he, hd⟩ := exists_hopEdge_of_mem hv
      exact ⟨e, he, Or.inr hd⟩
  · rintro ⟨e, he, rfl | rfl⟩
    · exact (ends_of_mem_hopEdges he).1
    · exact mem_cons_of_mem _ (ends_of_mem_hopEdges he).2.1

theorem mem_foldl_pushNode {nodes vars : List String} {v : String} :
    v ∈ nodes.foldl pushNode vars ↔ v ∈ vars ∨ v ∈ nodes := by
  induction nodes generalizing vars with
  | nil => simp
  | cons n nodes ih =>
    rw [foldl_cons, ih, pushNode]
    split_ifs with hn
    · constructor
      · exact fun h => h.imp_right (mem_cons_of_mem _)
      · rintro (h | h)
        · exact Or.inl h
        · rcases mem_cons.1 h with rfl | h
          · exact Or.inl hn
          · exact Or.inr h
    · simp [or_assoc]

theorem nodup_foldl_pushNode {nodes vars : List String} (h : vars.Nodup) : (nodes.foldl pushNode vars).Nodup := by
  induction nodes generalizing vars with
  | nil => exact h
  | cons n nodes ih =>
    rw [foldl_cons, pushNode]
    split_ifs with hn
    · exact ih h
    · refine ih (nodup_append.2 ⟨h, nodup_singleton n, ?_⟩)
      rintro a ha b hb rfl
      exact hn (mem_singleton.1 hb ▸ ha)

variable {p : MatchPattern}

theorem MatchPattern.nodup_vars : p.vars.Nodup := nodup_foldl_pushNode nodup_nil

theorem MatchPattern.mem_vars_iff {v : String} : v ∈ p.vars ↔ ∃ e ∈ p.edges, e.src = v ∨ e.dst = v := by
  simp only [MatchPattern.vars, MatchPattern.edges, nodeVars, mem_foldl_pushNode, not_mem_nil,
    false_or, mem_append, mem_flatMap]
  constructor
  · rintro (hv | ⟨s, hs, hv⟩)
    · obtain ⟨e, he, hv⟩ := Chain.mem_nodes_iff.1 hv
      exact ⟨e, Or.inl he, hv⟩
    · obtain ⟨e, he, hv⟩ := Chain.mem_nodes_iff.1 hv
      exact ⟨e, Or.inr ⟨s, hs, he⟩, hv⟩
  · rintro ⟨e, he | ⟨s, hs, he⟩, hv⟩
    · exact Or.inl (Chain.mem_nodes_iff.2 ⟨e, he, hv⟩)
    · exact Or.inr ⟨s, hs, Chain.mem_nodes_iff.2 ⟨e, he, hv⟩⟩

theorem MatchPattern.mandatory (hrest : ∀ s ∈ p.rest, s.1 = false) : ∀ e ∈ p.edges, e.optional = false := by
  intro e he
  rcases mem_append.1 he with he | he
  · exact (ends_of_mem_hopEdges he).2.2
  · obtain ⟨s, hs, he⟩ := mem_flatMap.1 he
    rw [(ends_of_mem_hopEdges he).2.2, hrest s hs]

theorem places_general (hrest : ∀ s ∈ p.rest, s.1 = false) :
    Places p.vars p.edges (p.edges.map (EdgePat.index p.vars)) := by
  have hget : ∀ e ∈ p.edges, p.vars[p.vars.idxOf e.src]? = some e.src ∧ p.vars[p.vars.idxOf e.dst]? = some e.dst := by
    intro e he
    have hs := MatchPattern.mem_vars_iff.2 ⟨e, he, Or.inl rfl⟩
    have ht := MatchPattern.mem_vars_iff.2 ⟨e, he, Or.inr rfl⟩
    exact ⟨getElem?_idxOf hs, getElem?_idxOf ht⟩
  refine ⟨by simp, fun j e x he hx => ?_, fun i hi => ?_, MatchPattern.mandatory hrest, ?_⟩
  · rw [getElem?_map, he, Option.map_some, Option.some_inj] at hx
    subst hx
    exact hget e (mem_of_getElem? he)
  · obtain ⟨e, he, hv⟩ := MatchPattern.mem_vars_iff.1 (getElem_mem hi)
    refine ⟨e.index p.vars, mem_map_of_mem he, hv.imp (fun h => ?_) (fun h => ?_)⟩
    · rw [EdgePat.index, h, MatchPattern.nodup_vars.idxOf_getElem]
    · rw [EdgePat.index, h, MatchPattern.nodup_vars.idxOf_getElem]
  · intro x hx
    obtain ⟨e, he, rfl⟩ := mem_map.1 hx
    exact MatchPattern.mandatory hrest e he

def chainIndex : ℕ → List Hop → List IndexedEdge
  | _, [] => []
  | k, h :: hs => ⟨k, k + 1, h.etype, false⟩ :: chainIndex (k + 1) hs

theorem getElem?_chainIndex (k : ℕ) (hs : List Hop) (j : ℕ) :
    (chainIndex k hs)[j]? = hs[j]?.map fun h => ⟨k + j, k + j + 1, h.etype, false⟩ := by
  induction hs generalizing k j with
  | nil => simp [chainIndex]
  | cons h hs ih =>
    cases j with
    | zero => simp [chainIndex]
    | succ j =>
      rw [chainIndex, getElem?_cons_succ, getElem?_cons_succ, ih]
      simp only [Nat.add_assoc, Nat.add_comm 1]

theorem getElem?_hopEdges {o : Bool} {prev : String} {hs : List Hop} {j : ℕ} {e : EdgePat}
    (he : (hopEdges o prev hs)[j]? = some e) : (prev :: hs.map Hop.dst)[j]? = some e.src ∧
      (prev :: hs.map Hop.dst)[j + 1]? = some e.dst := by
  induction hs generalizing prev j with
  | nil => simp [hopEdges] at he
  | cons h hs ih =>
    rw [hopEdges] at he
    cases j with
    | zero =>
      rw [getElem?_cons_zero, Option.some_inj] at he
      subst he
      exact ⟨rfl, rfl⟩
    | succ j => exact ih he

theorem length_hopEdges (o : Bool) (prev : String) (hs : List Hop) : (hopEdges o prev hs).length = hs.length := by
  induction hs generalizing prev with
  | nil => rfl
  | cons h hs ih => simp [hopEdges, ih]

theorem length_chainIndex (k : ℕ) (hs : List Hop) : (chainIndex k hs).length = hs.length := by
  induction hs generalizing k with
  | nil => rfl
  | cons h hs ih => simp [chainIndex, ih]

theorem places_chain (c : Chain) : Places c.nodes (c.edges false) (chainIndex 0 (c.hop :: c.hops)) := by
  refine ⟨?_, fun j e x he hx => ?_, fun i hi => ?_, ?_, ?_⟩
  · rw [length_chainIndex, Chain.edges, length_hopEdges]
  · rw [getElem?_chainIndex, Option.map_eq_some_iff] at hx
    obtain ⟨h, -, rfl⟩ := hx
    rw [Nat.zero_add]
    exact getElem?_hopEdges he
  · rw [Chain.nodes, length_cons, length_map] at hi
    have hmem : ∀ j < (c.hop :: c.hops).length, ∃ t, (⟨j, j + 1, t, false⟩ : IndexedEdge) ∈
        chainIndex 0 (c.hop :: c.hops) := by
      intro j hj
      refine ⟨(c.hop :: c.hops)[j].etype, mem_of_getElem? (i := j) ?_⟩
      rw [getElem?_chainIndex, getElem?_eq_getElem hj, Option.map_some, Nat.zero_add]
    cases i with
    | zero =>
      obtain ⟨t, ht⟩ := hmem 0 (by simp)
      exact ⟨_, ht, Or.inl rfl⟩
    | succ i =>
      obtain ⟨t, ht⟩ := hmem i (by omega)
      exact ⟨_, ht, Or.inr rfl⟩
  · exact fun e he => (ends_of_mem_hopEdges he).2.2
  · intro x hx
    obtain ⟨j, hj⟩ := getElem?_of_mem hx
    rw [getElem?_chainIndex, Option.map_eq_some_iff] at hj
    obtain ⟨h, -, rfl⟩ := hj
    rfl

theorem restJoins_chainIndex {joined : List ℕ} {k : ℕ} (hs : List Hop) (hk : k ∈ joined)
    (hle : ∀ i ∈ joined, i ≤ k) : restJoins joined k (chainIndex k hs) = (List.range' k hs.length).flatMap fun i =>
        [⟨.inner, .edge i, .edges, [srcCond (.edge i) (.node i)]⟩,
          ⟨.inner, .node (i + 1), .nodes, [dstCond (.edge i) (.node (i + 1))]⟩] := by
  induction hs generalizing joined k with
  | nil => rfl
  | cons h hs ih =>
    have hnew : k + 1 ∉ joined := fun hmem => by
      have := hle _ hmem
      omega
    rw [chainIndex, restJoins, length_cons, range'_succ, flatMap_cons]
    have hstep : edgeJoins joined k ⟨k, k + 1, h.etype, false⟩ =
        ([⟨.inner, .edge k, .edges, [srcCond (.edge k) (.node k)]⟩,
          ⟨.inner, .node (k + 1), .nodes, [dstCond (.edge k) (.node (k + 1))]⟩],
          (k + 1) :: joined) := by
      simp [edgeJoins, hk, hnew]
    rw [hstep, ih mem_cons_self]
    intro i hi
    rcases mem_cons.1 hi with rfl | hi
    · exact le_rfl
    · exact Nat.le_succ_of_le (hle i hi)

theorem chainJoins_eq (h : Hop) (hs : List Hop) :
    chainJoins (h :: hs).length = indexJoins (chainIndex 0 (h :: hs)) := by
  rw [chainIndex, indexJoins, restJoins_chainIndex hs mem_cons_self (by simp)]
  rfl

end Builders

section Projection

variable {find : String → Except String Alias} {project : List ProjectCol} {items : List SelectItem}

theorem selectItems_spec (h : selectItems find project = .ok items) :
    List.Forall₂ (fun c i => find c.var = .ok i.name ∧ i.col = c.col ∧ i.outAlias = c.outAlias) project items := by
  induction project generalizing items with
  | nil =>
    simp only [selectItems, Except.ok.injEq] at h
    subst h
    exact .nil
  | cons c cs ih =>
    rw [selectItems] at h
    cases hname : find c.var with
    | error e => simp [hname] at h
    | ok name =>
      cases hrest : selectItems find cs with
      | error e => simp [hname, hrest] at h
      | ok rest =>
        simp only [hname, hrest, Except.ok.injEq] at h
        subst h
        exact .cons ⟨hname, rfl, rfl⟩ (ih hrest)

theorem getElem?_items (h : selectItems find project = .ok items) {n : ℕ} {c : ProjectCol}
    (hn : project[n]? = some c) : ∃ i, items[n]? = some i ∧ find c.var = .ok i.name := by
  have hspec := selectItems_spec h
  clear h
  induction hspec generalizing n with
  | nil => simp at hn
  | cons hc _ ih =>
    cases n with
    | zero =>
      obtain rfl := Option.some_inj.1 hn
      exact ⟨_, rfl, hc.1⟩
    | succ n => exact ih hn

theorem outAlias_of_selectItems (h : selectItems find project = .ok items) :
    (items.map fun i => Kql.sqlName i.outAlias) = project.map fun c => Kql.sqlName c.outAlias := by
  have hspec := selectItems_spec h
  clear h
  induction hspec with
  | nil => rfl
  | cons hc _ ih => rw [map_cons, map_cons, hc.2.2, ih]

variable {ν ε V : Type} {E : EdgeTable ε} {N : NodeTable ν} {ecol : ε → String → V}
  {ncol : ν → String → V} {names : List String} {edges : List EdgePat}

theorem row_spread (h : selectItems find project = .ok items) (a : Env MatchVar (RowRef E N))
    (hfind : ∀ c ∈ project, ∀ name, find c.var = .ok name → spread names a name = a (matchVar edges c.var)) :
    (items.map fun i => (spread names a i.name).map fun r => cell ecol ncol r i.col) =
      matchRow ecol ncol edges project a := by
  have hspec := selectItems_spec h
  clear h
  induction hspec with
  | nil => rfl
  | cons hc _ ih =>
    obtain ⟨hname, hcol, -⟩ := hc
    rw [map_cons, ih fun c hc => hfind c (mem_cons_of_mem _ hc), hfind _ mem_cons_self _ hname, hcol]
    rfl

theorem matchVar_node {var : String} (h : ∃ e ∈ edges, e.src = var ∨ e.dst = var) : matchVar edges var = .node var :=
  if_pos h

theorem matchVar_edge {var : String} (h : ¬ ∃ e ∈ edges, e.src = var ∨ e.dst = var) :
    matchVar edges var = .edge ((edges.map EdgePat.var).idxOf var) :=
  if_neg h

theorem spread_resolve {R : Type} (hnames : ∀ v, v ∈ names ↔ ∃ e ∈ edges, e.src = v ∨ e.dst = v)
    {var : String} {name : Alias} (h : resolve names (edges.map EdgePat.var) var = .ok name)
    (a : Env MatchVar R) : spread names a name = a (matchVar edges var) := by
  rw [resolve] at h
  split_ifs at h with hn he
  · obtain rfl := Except.ok.inj h
    rw [spread_node (getElem?_idxOf hn), matchVar_node ((hnames var).1 hn)]
  · obtain rfl := Except.ok.inj h
    rw [spread_edge, matchVar_edge fun hv => hn ((hnames var).2 hv)]

end Projection

section Main

variable {p : MatchPattern} {project : List ProjectCol} {items : List SelectItem}
  {find : String → Except String Alias} {names : List String} {indexed : List IndexedEdge}

theorem gmRows_eq_some_iff {ν ε V : Type} {E : EdgeTable ε} {N : NodeTable ν} {ecol : ε → String → V}
    {ncol : ν → String → V} {plan : MatchPlan} {rows : List (List (Option V))} :
    gmRows E N ecol ncol plan = some rows ↔
      ((plan.joins.map Join.name).Nodup ∧ (plan.items.map fun i => Kql.sqlName i.outAlias).Nodup) ∧
        ((solve (graphStore E N) plan.joins plan.wheres).map fun env =>
          plan.items.map fun i => (env i.name).map fun r => cell ecol ncol r i.col) = rows := by
  rw [gmRows]
  split_ifs with h
  · simp [h]
  · simp [h]

theorem startsApart_of_nodup (h : ((indexJoins indexed).map Join.name).Nodup) : StartsApart indexed := by
  intro x hx
  cases indexed with
  | nil => simp at hx
  | cons y ys =>
    obtain rfl := Option.some_inj.1 hx
    rw [indexJoins, map_append] at h
    have h := (nodup_append.1 h).1
    simp only [map_cons, map_nil, nodup_cons, mem_cons, not_or, Alias.node.injEq] at h
    exact h.2.1.1

/-- **Over places, the operator is exact** if and only if no name is given twice and the joins put all
conditions, provided that the projection finds the variables. -/
theorem matchExact_of_places (hp : Places names p.edges indexed) (hitems : selectItems find project = .ok items)
    (hfind : ∀ c ∈ project, ∀ name, find c.var = .ok name → ∀ (R : Type) (a : Env MatchVar R),
      spread names a name = a (matchVar p.edges c.var))
    (hout : (project.map fun c => Kql.sqlName c.outAlias).Nodup) (hloop : StartsApart indexed)
    (hnd : names.Nodup) (hdst : DstJoined indexed) :
    MatchExact p project ⟨items, indexJoins indexed, typeConds p.edges⟩ := by
  intro ν ε V E N ecol ncol _
  refine ⟨_, gmRows_eq_some_iff.2 ⟨⟨(inScope_indexJoins hloop).nodup, ?_⟩, rfl⟩, ?_⟩
  · rw [outAlias_of_selectItems hitems]
    exact hout
  · exact enumerates_of_places hp hloop hnd hdst fun a _ =>
      row_spread hitems a fun c hc name hname => hfind c hc name hname _ a

theorem places_of_matchExact (hp : Places names p.edges indexed) (hitems : selectItems find project = .ok items)
    (h : MatchExact p project ⟨items, indexJoins indexed, typeConds p.edges⟩) :
    (project.map fun c => Kql.sqlName c.outAlias).Nodup ∧ StartsApart indexed ∧ names.Nodup ∧ DstJoined indexed := by
  obtain ⟨rows, hrows, hexact⟩ := h Bool _ Unit (fullEdges p.edges) fullNodes (fun _ _ => ())
    (fun _ _ => ()) uniqueIds_fullNodes
  obtain ⟨⟨hnames, hout⟩, rfl⟩ := gmRows_eq_some_iff.1 hrows
  have hloop := startsApart_of_nodup hnames
  have hall : ∀ env, IsJoined (fullEdges p.edges) fullNodes p.edges indexed env →
      ∃ a, IsMatch (fullEdges p.edges) fullNodes p.edges a ∧ spread names a = env :=
    fun _ => exists_spread_of_enumerates hp hloop hexact
  rw [outAlias_of_selectItems hitems] at hout
  exact ⟨hout, hloop, nodup_of_spread hp hall, dstJoined_of_spread hp hall⟩

theorem loopsJoined_iff : LoopsJoined p.edges ↔ StartsApart (p.edges.map (EdgePat.index p.vars)) ∧
      DstJoined (p.edges.map (EdgePat.index p.vars)) := by
  have hinj : ∀ {v w : String}, (∃ e ∈ p.edges, e.src = v ∨ e.dst = v) →
      (p.vars.idxOf v = p.vars.idxOf w ↔ v = w) := fun hv =>
    ⟨(idxOf_inj (MatchPattern.mem_vars_iff.2 hv)).1, fun h => h ▸ rfl⟩
  have htouch : ∀ {j : ℕ} {v : String}, (∃ e ∈ p.edges, e.src = v ∨ e.dst = v) →
      (Touches ((p.edges.map (EdgePat.index p.vars)).take j) (p.vars.idxOf v) ↔
        ∃ e ∈ p.edges.take j, e.src = v ∨ e.dst = v) := by
    intro j v hv
    rw [← map_take]
    simp only [Touches, mem_map, exists_exists_and_eq_and]
    refine exists_congr fun e => and_congr_right fun he => ?_
    have he := mem_of_mem_take he
    exact or_congr (hinj ⟨e, he, Or.inl rfl⟩) (hinj ⟨e, he, Or.inr rfl⟩)
  constructor
  · intro h
    constructor
    · intro x hx
      rw [getElem?_map, Option.map_eq_some_iff] at hx
      obtain ⟨e, he, rfl⟩ := hx
      intro heq
      have hmem := mem_of_getElem? he
      obtain ⟨e', he', -⟩ := h 0 e he ((hinj ⟨e, hmem, Or.inl rfl⟩).1 heq)
      simp at he'
    · intro j x hx
      rw [getElem?_map, Option.map_eq_some_iff] at hx
      obtain ⟨e, he, rfl⟩ := hx
      have hmem := mem_of_getElem? he
      by_cases hloop : e.src = e.dst
      · obtain ⟨e', he', hv⟩ := h j e he hloop
        rw [hloop] at hv
        exact Or.inr (Or.inr ((htouch ⟨e, hmem, Or.inr rfl⟩).2 ⟨e', he', hv⟩))
      · exact Or.inr (Or.inl fun heq => hloop ((hinj ⟨e, hmem, Or.inl rfl⟩).1 heq.symm))
  · rintro ⟨hstart, hdst⟩ j e he hloop
    have hmem := mem_of_getElem? he
    have hx : (p.edges.map (EdgePat.index p.vars))[j]? = some (e.index p.vars) := by
      rw [getElem?_map, he, Option.map_some]
    have hsame : (e.index p.vars).src = (e.index p.vars).dst := congrArg p.vars.idxOf hloop
    rcases hdst j _ hx with rfl | hne | ht
    · exact absurd hsame (hstart _ hx)
    · exact absurd hsame.symm hne
    · rw [hloop]
      exact (htouch ⟨e, hmem, Or.inr rfl⟩).1 ht

theorem opGraphMatch_chain {plan : MatchPlan} (hr : p.rest = [])
    (h : opGraphMatch p project = .ok plan) :
    ∃ items, selectItems (if p.first.hops.isEmpty then resolveSingle p.first
        else resolve p.first.nodes (p.edges.map EdgePat.var)) project = .ok items ∧
      plan = ⟨items, indexJoins (chainIndex 0 (p.first.hop :: p.first.hops)), typeConds p.edges⟩ := by
  have hlen : p.edges.length = (p.first.hop :: p.first.hops).length := by
    simp [MatchPattern.edges, hr, Chain.edges, length_hopEdges]
  simp only [opGraphMatch, hr] at h
  split at h
  · cases h
  · rename_i items hitems
    split_ifs at h
    refine ⟨items, hitems, ?_⟩
    rw [← chainJoins_eq, ← hlen]
    exact (Except.ok.inj h).symm

theorem opGraphMatch_general {plan : MatchPlan} {s : Bool × Chain} {rest : List (Bool × Chain)}
    (hr : p.rest = s :: rest) (h : opGraphMatch p project = .ok plan) :
    ∃ items, selectItems (resolve p.vars (p.edges.map EdgePat.var)) project = .ok items ∧
      plan = ⟨items, indexJoins (p.edges.map (EdgePat.index p.vars)), typeConds p.edges⟩ := by
  simp only [opGraphMatch, hr] at h
  split at h
  · cases h
  · rename_i items hitems
    split_ifs at h
    exact ⟨items, hitems, (Except.ok.inj h).symm⟩

theorem edges_of_single (hr : p.rest = []) : p.edges = p.first.edges false := by
  simp [MatchPattern.edges, hr]

theorem startsApart_chainIndex (hs : List Hop) : StartsApart (chainIndex 0 hs) := by
  intro x hx
  rw [getElem?_chainIndex, Option.map_eq_some_iff] at hx
  obtain ⟨h, -, rfl⟩ := hx
  exact Nat.ne_of_lt (Nat.lt_succ_self _)

theorem dstJoined_chainIndex (hs : List Hop) : DstJoined (chainIndex 0 hs) := by
  intro j x hx
  rw [getElem?_chainIndex, Option.map_eq_some_iff] at hx
  obtain ⟨h, -, rfl⟩ := hx
  exact Or.inr (Or.inl (Nat.succ_ne_self _))

/-- **A single hop** finds the variables, unless it is asked for a name that the edge shares with the
second node. -/
theorem spread_resolveSingle {R : Type} {c : Chain} (hc : c.hops = []) {var : String} {name : Alias}
    (h : resolveSingle c var = .ok name) (hvar : c.hop.var = c.hop.dst → var ≠ c.hop.var)
    (a : Env MatchVar R) : spread c.nodes a name = a (matchVar (c.edges false) var) := by
  have hnodes : c.nodes = [c.start, c.hop.dst] := by simp [Chain.nodes, hc]
  have hedges : c.edges false = [⟨c.hop.var, c.hop.etype, c.start, c.hop.dst, false⟩] := by
    simp [Chain.edges, hc, hopEdges]
  rw [hnodes, hedges]
  rw [resolveSingle] at h
  split_ifs at h with hs he hd
  · obtain rfl := Except.ok.inj h
    rw [hs, matchVar_node ⟨_, mem_singleton_self _, Or.inl rfl⟩]
    rfl
  · obtain rfl := Except.ok.inj h
    rw [matchVar_edge]
    · simp [he]
    · rintro ⟨e, he', hv⟩
      obtain rfl := mem_singleton.1 he'
      rcases hv with hv | hv
      · exact hs hv.symm
      · exact hvar (he ▸ hv.symm) he
  · obtain rfl := Except.ok.inj h
    rw [hd, matchVar_node ⟨_, mem_singleton_self _, Or.inr rfl⟩]
    rfl

theorem not_matchExact_of_clash {plan : MatchPlan} {c : ProjectCol} (hr : p.rest = [])
    (hhops : p.first.hops = []) (hnd : p.first.nodes.Nodup)
    (h : opGraphMatch p project = .ok plan) (hclash : p.first.hop.var = p.first.hop.dst)
    (hc : c ∈ project) (hvar : c.var = p.first.hop.var) : ¬ MatchExact p project plan := by
  intro hexact
  obtain ⟨items, hitems, rfl⟩ := opGraphMatch_chain hr h
  have hp := places_chain p.first
  rw [← edges_of_single hr] at hp
  -- columns of edges read 1, columns of nodes 0
  obtain ⟨rows, hrows, hex⟩ := hexact Bool _ ℕ (fullEdges p.edges) fullNodes (fun _ _ => 1)
    (fun _ _ => 0) uniqueIds_fullNodes
  obtain ⟨-, rfl⟩ := gmRows_eq_some_iff.1 hrows
  obtain ⟨env, henv, -, hedge⟩ := exists_isJoined hp (fun _ => false) (fun _ => false) fun _ _ _ _ => rfl
  obtain ⟨k, hk, -⟩ := hedge 0 _ rfl
  obtain ⟨l, -, hl, hperm⟩ := hex
  have hmem := hperm.mem_iff.1 (mem_map_of_mem
    ((mem_solve_indexJoins hp (startsApart_chainIndex _)).2 henv))
  obtain ⟨a, ha, hrow⟩ := mem_map.1 hmem
  have hmatch := (hl a).1 ha
  -- the place in the row where the name is shown
  obtain ⟨n, hn⟩ := getElem?_of_mem hc
  obtain ⟨i, hi, hname⟩ := getElem?_items hitems hn
  have hne : p.first.start ≠ p.first.hop.dst := by
    intro heq
    rw [Chain.nodes, hhops, heq] at hnd
    simp at hnd
  have hedgeName : i.name = .edge 0 := by
    rw [hhops, isEmpty_nil, if_pos rfl, hvar, resolveSingle,
      if_neg fun heq => hne (hclash ▸ heq.symm), if_pos rfl] at hname
    exact (Except.ok.inj hname).symm
  have hfirst : p.edges[0]? = some ⟨p.first.hop.var, p.first.hop.etype, p.first.start, p.first.hop.dst, false⟩ := by
    rw [edges_of_single hr]
    rfl
  have hdst : p.first.hop.dst = c.var := (hvar.trans hclash).symm
  have hnode : matchVar p.edges c.var = .node c.var :=
    matchVar_node ⟨_, mem_of_getElem? hfirst, Or.inr hdst⟩
  obtain ⟨r, hr', har⟩ := hmatch.bound (.node c.var, .nodes)
    (mem_matchNames.2 ⟨0, _, hfirst, Or.inr (Or.inr (by rw [hdst]))⟩)
  obtain ⟨l', -, rfl⟩ := mem_map.1 hr'
  have hshow := congrArg (fun row => row[n]?) hrow
  simp only [matchRow, getElem?_map, hn, hi, Option.map_some, hnode, har, hedgeName, hk, cell] at hshow
  simp at hshow

/-- `(a)-[r]->(b), (b)-[s:KNOWS]->(a)`. -/
def cycle : MatchPattern := ⟨⟨"a", ⟨"r", none, "b"⟩, []⟩, [(false, ⟨"b", ⟨"s", some "KNOWS", "a"⟩, []⟩)]⟩

/-- One edge from `x` to `y`. -/
def arrowEdges : EdgeTable Unit := ⟨[()], fun _ => some "x", fun _ => some "y", fun _ => none⟩

def arrowNodes : NodeTable String := ⟨["x", "y"], some⟩

/-- `(a)-[e]->(a)`. -/
def loop : MatchPattern := ⟨⟨"a", ⟨"e", none, "a"⟩, []⟩, []⟩

end Main

end KqlGraph
