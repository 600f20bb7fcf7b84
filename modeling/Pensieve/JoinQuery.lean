/-
**Queries that join tables under names.**

`FROM t₁ a₁ JOIN t₂ a₂ ON … WHERE …` gives every table a name and builds up assignments of rows to
names, one table after another: an inner join tries every row of the next table and keeps the ones
for which its conditions hold, a left join keeps the assignment as it is where there is none, so
that the name has no row and reads as null.
-/

import Pensieve.SqlJoin

namespace JoinQuery

open List
open SqlJoin

variable {A T R C : Type}

/-! ### Queries -/

/-- Which row a name stands for: none before its table is joined, and none after a left join that
found none. -/
abbrev Env (A R : Type) := A → Option R

/-- `a.c = b.d` and `a.c = 'text'`. -/
inductive Cond (A C : Type) where
  | same (a : A) (c : C) (b : A) (d : C)
  | is (a : A) (c : C) (text : String)

inductive Kind
  | inner
  | left
  deriving DecidableEq

/-- `[LEFT] JOIN table name ON on`. -/
structure Join (A T C : Type) where
  kind : Kind
  name : A
  table : T
  on : List (Cond A C)

/-- The tables that a query reads: their rows, told apart, and the texts in their columns. -/
structure Store (T R C : Type) where
  rows : T → List R
  read : R → C → Option String
  nodup : ∀ t, (rows t).Nodup

def Cond.names : Cond A C → List A
  | .same a _ b _ => [a, b]
  | .is a _ _ => [a]

section Meaning

variable (S : Store T R C)

def get (env : Env A R) (a : A) (c : C) : Option String := (env a).bind fun r => S.read r c

def Cond.holds (env : Env A R) : Cond A C → Bool
  | .same a c b d => sqlEq (get S env a c) (get S env b d)
  | .is a c text => sqlEq (get S env a c) (some text)

variable [DecidableEq A]

def Join.extend (j : Join A T C) (env : Env A R) : List (Env A R) :=
  match j.kind, ((S.rows j.table).map fun r => Function.update env j.name (some r)).filter
      fun env' => j.on.all (Cond.holds S env') with
  | .left, [] => [env]
  | _, found => found

/-- The tables behind the ones that `envs` are about. -/
def runFrom (envs : List (Env A R)) (joins : List (Join A T C)) : List (Env A R) :=
  joins.foldl (fun envs j => envs.flatMap (j.extend S)) envs

/-- **`FROM`.** -/
def run (joins : List (Join A T C)) : List (Env A R) := runFrom S [fun _ => none] joins

/-- **`FROM … WHERE …`.** -/
def solve (joins : List (Join A T C)) (wheres : List (Cond A C)) : List (Env A R) :=
  (run S joins).filter fun env => wheres.all (Cond.holds S env)

end Meaning

def InScope : List A → List (Join A T C) → Prop
  | _, [] => True
  | seen, j :: js => j.name ∉ seen ∧ (∀ c ∈ j.on, ∀ a ∈ c.names, a = j.name ∨ a ∈ seen) ∧ InScope (j.name :: seen) js

def decls (joins : List (Join A T C)) : List (A × T) := joins.map fun j => (j.name, j.table)

def conds (joins : List (Join A T C)) : List (Cond A C) := joins.flatMap Join.on

/-- **A solution**: a row for every name, and no other name, so that all conditions hold. -/
structure IsSolution (S : Store T R C) (names : List (A × T)) (cs : List (Cond A C)) (env : Env A R) : Prop where
  bound : ∀ d ∈ names, ∃ r ∈ S.rows d.2, env d.1 = some r
  unbound : ∀ a, (∀ d ∈ names, d.1 ≠ a) → env a = none
  holds : ∀ c ∈ cs, c.holds S env = true

theorem decls_append (js ks : List (Join A T C)) : decls (js ++ ks) = decls js ++ decls ks := map_append

theorem conds_append (js ks : List (Join A T C)) : conds (js ++ ks) = conds js ++ conds ks := flatMap_append

section Inner

variable {S : Store T R C}

theorem Cond.holds_congr {c : Cond A C} {env env' : Env A R} (h : ∀ a ∈ c.names, env a = env' a) :
    c.holds S env = c.holds S env' := by
  cases c with
  | same a c b d =>
    have ha : env a = env' a := h a (by simp [Cond.names])
    have hb : env b = env' b := h b (by simp [Cond.names])
    simp only [Cond.holds, get, ha, hb]
  | is a c t =>
    have ha : env a = env' a := h a (by simp [Cond.names])
    simp only [Cond.holds, get, ha]

variable {seen : List A} {joins : List (Join A T C)}

theorem InScope.notMem_seen (h : InScope seen joins) {j : Join A T C} (hj : j ∈ joins) : j.name ∉ seen := by
  induction joins generalizing seen with
  | nil => simp at hj
  | cons j' js ih =>
    rcases mem_cons.1 hj with rfl | hj
    · exact h.1
    · exact fun hmem => ih h.2.2 hj (mem_cons_of_mem _ hmem)

theorem InScope.nodup (h : InScope seen joins) : (joins.map Join.name).Nodup := by
  induction joins generalizing seen with
  | nil => exact nodup_nil
  | cons j js ih =>
    obtain ⟨-, -, h⟩ := h
    refine nodup_cons.2 ⟨fun hmem => ?_, ih h⟩
    obtain ⟨k, hk, hkj⟩ := mem_map.1 hmem
    exact h.notMem_seen hk (hkj ▸ mem_cons_self)

theorem inScope_append {js ks : List (Join A T C)} :
    InScope seen (js ++ ks) ↔ InScope seen js ∧ InScope ((js.map Join.name).reverse ++ seen) ks := by
  induction js generalizing seen with
  | nil => simp [InScope]
  | cons j js ih => simp [InScope, ih, and_assoc]

variable [DecidableEq A]

theorem mem_extend_inner {j : Join A T C} (hj : j.kind = .inner) {env env' : Env A R} :
    env' ∈ j.extend S env ↔ ∃ r ∈ S.rows j.table, env' = Function.update env j.name (some r) ∧
      ∀ c ∈ j.on, c.holds S env' = true := by
  have hext : j.extend S env = ((S.rows j.table).map fun r => Function.update env j.name (some r)).filter
        fun env' => j.on.all (Cond.holds S env') := by
    rw [Join.extend, hj]
  rw [hext, mem_filter, mem_map, all_eq_true]
  constructor
  · rintro ⟨⟨r, hr, rfl⟩, hon⟩
    exact ⟨r, hr, rfl, hon⟩
  · rintro ⟨r, hr, rfl, hon⟩
    exact ⟨⟨r, hr, rfl⟩, hon⟩

theorem mem_runFrom_iff (hscope : InScope seen joins) (hinner : ∀ j ∈ joins, j.kind = .inner)
    (envs : List (Env A R)) (env' : Env A R) : env' ∈ runFrom S envs joins ↔ ∃ env ∈ envs,
      (∀ a, (∀ j ∈ joins, j.name ≠ a) → env' a = env a) ∧ ∀ j ∈ joins, (∃ r ∈ S.rows j.table, env' j.name = some r) ∧
        ∀ c ∈ j.on, c.holds S env' = true := by
  induction joins generalizing seen envs with
  | nil =>
    simp only [runFrom, foldl_nil, not_mem_nil, false_imp_iff, implies_true, true_imp_iff, and_true]
    exact ⟨fun h => ⟨env', h, fun _ => rfl⟩, fun ⟨env, h, heq⟩ => funext heq ▸ h⟩
  | cons j js ih =>
    obtain ⟨-, hon, hscope'⟩ := hscope
    have hstep : runFrom S envs (j :: js) = runFrom S (envs.flatMap (j.extend S)) js := rfl
    -- the conditions of this join read nothing that later joins bind
    have hread : ∀ mid : Env A R, (∀ a, (∀ k ∈ js, k.name ≠ a) → env' a = mid a) →
        ∀ c ∈ j.on, c.holds S mid = c.holds S env' := by
      intro mid hmid c hc
      refine Cond.holds_congr fun a ha => (hmid a fun k hk hka => ?_).symm
      have hseen := hscope'.notMem_seen hk
      rw [hka] at hseen
      exact hseen (mem_cons.2 (hon c hc a ha))
    rw [hstep, ih hscope' fun k hk => hinner k (mem_cons_of_mem _ hk)]
    constructor
    · rintro ⟨mid, hmid, hsame, hall⟩
      obtain ⟨env, henv, hmid⟩ := mem_flatMap.1 hmid
      obtain ⟨r, hr, rfl, hholds⟩ := (mem_extend_inner (hinner j mem_cons_self)).1 hmid
      refine ⟨env, henv, fun a ha => ?_, ?_⟩
      · rw [hsame a fun k hk => ha k (mem_cons_of_mem _ hk)]
        exact Function.update_of_ne (fun h => ha j mem_cons_self h.symm) _ _
      · refine forall_mem_cons.2 ⟨⟨⟨r, hr, ?_⟩, fun c hc => ?_⟩, hall⟩
        · rw [hsame j.name fun k hk hkj => hscope'.notMem_seen hk (hkj ▸ mem_cons_self), Function.update_self]
        · rw [← hread _ hsame c hc]
          exact hholds c hc
    · rintro ⟨env, henv, hsame, hall⟩
      obtain ⟨⟨⟨r, hr, hjr⟩, hholds⟩, hrest⟩ := forall_mem_cons.1 hall
      have hmid : ∀ a, (∀ k ∈ js, k.name ≠ a) → env' a = Function.update env j.name (some r) a := by
        intro a ha
        by_cases haj : a = j.name
        · rw [haj, hjr, Function.update_self]
        · rw [Function.update_of_ne haj]
          exact hsame a (forall_mem_cons.2 ⟨fun h => haj h.symm, ha⟩)
      refine ⟨Function.update env j.name (some r), mem_flatMap.2 ⟨env, henv, ?_⟩, hmid, hrest⟩
      refine (mem_extend_inner (hinner j mem_cons_self)).2 ⟨r, hr, rfl, fun c hc => ?_⟩
      rw [hread _ hmid c hc]
      exact hholds c hc

theorem nodup_runFrom (hscope : InScope seen joins) (hinner : ∀ j ∈ joins, j.kind = .inner)
    {envs : List (Env A R)} (hnd : envs.Nodup)
    (hseen : ∀ env ∈ envs, ∀ a, a ∉ seen → env a = none) : (runFrom S envs joins).Nodup := by
  induction joins generalizing seen envs with
  | nil => exact hnd
  | cons j js ih =>
    obtain ⟨hname, -, hscope'⟩ := hscope
    have hkind := hinner j mem_cons_self
    refine ih hscope' (fun k hk => hinner k (mem_cons_of_mem _ hk)) ?_ ?_
    · rw [nodup_flatMap]
      refine ⟨fun env _ => ?_, ?_⟩
      · rw [Join.extend, hkind]
        refine List.Nodup.filter _ ((S.nodup j.table).map fun r r' hrr => ?_)
        have h := congrFun hrr j.name
        simpa using h
      · refine hnd.imp_of_mem fun {env env'} henv henv' hne => ?_
        rw [Function.onFun, disjoint_iff_ne]
        -- without the new name the assignment is the one that was extended
        rintro e he _ he' rfl
        obtain ⟨r, -, rfl, -⟩ := (mem_extend_inner hkind).1 he
        obtain ⟨r', -, heq, -⟩ := (mem_extend_inner hkind).1 he'
        refine hne (funext fun a => ?_)
        by_cases ha : a = j.name
        · rw [ha, hseen env henv _ hname, hseen env' henv' _ hname]
        · have h := congrFun heq a
          rwa [Function.update_of_ne ha, Function.update_of_ne ha] at h
    · intro e he a ha
      obtain ⟨env, henv, he⟩ := mem_flatMap.1 he
      obtain ⟨r, -, rfl, -⟩ := (mem_extend_inner hkind).1 he
      have haj : a ≠ j.name := fun h => ha (h ▸ mem_cons_self)
      rw [Function.update_of_ne haj]
      exact hseen env henv a fun hmem => ha (mem_cons_of_mem _ hmem)

theorem mem_solve_iff (hscope : InScope [] joins) (hinner : ∀ j ∈ joins, j.kind = .inner)
    (wheres : List (Cond A C)) (env : Env A R) :
    env ∈ solve S joins wheres ↔ IsSolution S (decls joins) (conds joins ++ wheres) env := by
  rw [solve, mem_filter, run, mem_runFrom_iff hscope hinner, all_eq_true]
  constructor
  · rintro ⟨⟨e, he, hsame, hall⟩, hw⟩
    obtain rfl := mem_singleton.1 he
    refine ⟨?_, ?_, ?_⟩
    · simp only [decls, mem_map]
      rintro _ ⟨j, hj, rfl⟩
      exact (hall j hj).1
    · intro a ha
      exact hsame a fun j hj => ha (j.name, j.table) (mem_map.2 ⟨j, hj, rfl⟩)
    · intro c hc
      rcases mem_append.1 hc with hc | hc
      · obtain ⟨j, hj, hc⟩ := mem_flatMap.1 hc
        exact (hall j hj).2 c hc
      · exact hw c hc
  · rintro ⟨hbound, hunbound, hholds⟩
    refine ⟨⟨_, mem_singleton_self _, fun a ha => ?_, fun j hj => ⟨?_, fun c hc => ?_⟩⟩, ?_⟩
    · refine hunbound a ?_
      simp only [decls, mem_map]
      rintro _ ⟨j, hj, rfl⟩
      exact ha j hj
    · exact hbound (j.name, j.table) (mem_map.2 ⟨j, hj, rfl⟩)
    · exact hholds c (mem_append_left _ (mem_flatMap.2 ⟨j, hj, hc⟩))
    · exact fun c hc => hholds c (mem_append_right _ hc)

theorem nodup_solve (hscope : InScope [] joins) (hinner : ∀ j ∈ joins, j.kind = .inner) (wheres : List (Cond A C)) :
    (solve S joins wheres).Nodup :=
  (nodup_runFrom hscope hinner (nodup_singleton _) fun env henv a _ => by
    rw [mem_singleton.1 henv]).filter _

end Inner

section Enumeration

variable {α β γ : Type}

/-- The rows `rows` are one for each `a` with `P a`, namely `g a`. -/
def Enumerates (P : α → Prop) (g : α → γ) (rows : List γ) : Prop :=
  ∃ l : List α, l.Nodup ∧ (∀ a, a ∈ l ↔ P a) ∧ rows.Perm (l.map g)

variable {P : α → Prop} {φ : α → β} {L : List β}

theorem exists_map_eq (h : ∀ b ∈ L, ∃ a, P a ∧ φ a = b) : ∃ l : List α, (∀ a ∈ l, P a) ∧ l.map φ = L := by
  induction L with
  | nil => exact ⟨[], by simp, rfl⟩
  | cons b L ih =>
    obtain ⟨a, ha, rfl⟩ := h b mem_cons_self
    obtain ⟨l, hl, rfl⟩ := ih fun b hb => h b (mem_cons_of_mem _ hb)
    exact ⟨a :: l, forall_mem_cons.2 ⟨ha, hl⟩, rfl⟩

/-- **If everything in `L` comes from some `a`, then `L` enumerates them.** -/
theorem enumerates_of_surjective (hL : L.Nodup)
    (hinj : ∀ a a', P a → P a' → φ a = φ a' → a = a') (hφ : ∀ a, P a → φ a ∈ L)
    (hsurj : ∀ b ∈ L, ∃ a, P a ∧ φ a = b) {f : β → γ} {g : α → γ}
    (hfg : ∀ a, P a → f (φ a) = g a) : Enumerates P g (L.map f) := by
  obtain ⟨l, hl, rfl⟩ := exists_map_eq hsurj
  refine ⟨l, hL.of_map _, fun a => ⟨hl a, fun ha => ?_⟩, ?_⟩
  · obtain ⟨a', ha', heq⟩ := mem_map.1 (hφ a ha)
    rw [← hinj a' a (hl a' ha') ha heq]
    exact ha'
  · rw [map_map]
    exact List.Perm.of_eq (map_congr_left fun a ha => hfg a (hl a ha))

/-- **If the rows of `L` are those of an enumeration, then everything in `L` comes from some `a`**:
there are not more of the one than of the other. -/
theorem surjective_of_enumerates (hinj : ∀ a a', P a → P a' → φ a = φ a' → a = a')
    (hφ : ∀ a, P a → φ a ∈ L) {f : β → γ} {g : α → γ} (h : Enumerates P g (L.map f)) :
    ∀ b ∈ L, ∃ a, P a ∧ φ a = b := by
  obtain ⟨l, hnd, hmem, hperm⟩ := h
  have hnd' : (l.map φ).Nodup := hnd.map_on fun a ha a' ha' heq => hinj a a' ((hmem a).1 ha) ((hmem a').1 ha') heq
  have hsub : l.map φ ⊆ L := by
    intro b hb
    obtain ⟨a, ha, rfl⟩ := mem_map.1 hb
    exact hφ a ((hmem a).1 ha)
  have hlen : L.length ≤ (l.map φ).length := by
    have h := hperm.length_eq
    simp only [length_map] at h ⊢
    omega
  intro b hb
  have hperm' := (subperm_of_subset hnd' hsub).perm_of_length_le hlen
  obtain ⟨a, ha, rfl⟩ := mem_map.1 (hperm'.mem_iff.2 hb)
  exact ⟨a, (hmem a).1 ha, rfl⟩

end Enumeration

end JoinQuery
