/-
**Pipelines that the flat query keeps.**

The operators of a pipeline apply in the order in which they are written, the clauses of a flat
query in the order of the standard.
-/

import Pensieve.QueryState

namespace Kql

open List
open Relational Sql

variable {V : Type}

/-! ### The condition -/

namespace QueryState

variable (base : List Col) (st : QueryState V)

def source : List Col :=
  match st.ctes.getLast? with
  | some c => c.2.select.columns []
  | none => base

def columns : List Col := st.selectClause.columns (st.source base)

/-- The names that `extend` has given. -/
def computed : List Col := st.extend.map Prod.fst

def reads (cols : List Col) : Prop := ∀ c ∈ cols, c ∈ st.columns base ∧ c ∉ st.computed

end QueryState

def Op.standing : Op V → Standing → Standing
  | .take _, s => s.taken
  | .sort _ _, _ => .sorted
  | .top _ _, _ => .first
  | .summarize _ _ _, _ => .any
  | .count, _ => .any
  | .distinct _, _ => .any
  | _, s => s

def Fits (base : List Col) (st : QueryState V) (s : Standing) : Op V → Prop
  | .where_ e => st.aggregates = [] ∧ s ≠ .first ∧ st.reads base e.cols
  | .project col cols => st.aggregates = [] ∧ st.distinct = false ∧ col :: cols ⊆ st.columns base ∧
      ∀ c ∈ keyCols st.orderBy, c ∈ st.computed → c ∈ col :: cols
  | .projectAway cols => st.aggregates = [] ∧ st.distinct = false ∧ st.select = [] ∧ st.reads base cols
  | .extend defs => st.aggregates = [] ∧ st.distinct = false ∧ st.select = [] ∧
      (∀ d ∈ defs, d.1 ∉ st.columns base ∧ d.1 ∉ keyCols st.orderBy ∧ st.reads base d.2.cols)
  | .summarize agg aggs keys => st.aggregates = [] ∧ st.distinct = false ∧ st.limit = none ∧
      (∀ k ∈ keys, st.reads base k.2.cols) ∧ ∀ a ∈ agg :: aggs, st.reads base a.2.cols
  | .take n => ∀ m ∈ st.limit, n ≤ m
  | .sort key keys => st.orderBy = [] ∧ keyCols (key :: keys) ⊆ st.columns base
  | .top n key => st.orderBy = [] ∧ keyCols [key] ⊆ st.columns base ∧ ∀ m ∈ st.limit, n ≤ m
  | .count => st.aggregates = [] ∧ st.distinct = false ∧ st.limit = none
  | .distinct cols => st.aggregates = [] ∧ s ≠ .first ∧
      cols ⊆ st.columns base ∧ (cols = [] → st.select = [] → st.extend = [] ∧ st.exclude = [])

instance (base : List Col) (st : QueryState V) (cols : List Col) : Decidable (st.reads base cols) :=
  inferInstanceAs (Decidable (∀ c ∈ cols, c ∈ st.columns base ∧ c ∉ st.computed))

instance (base : List Col) (st : QueryState V) (s : Standing) : (op : Op V) → Decidable (Fits base st s op)
  | .where_ e => inferInstanceAs (Decidable (st.aggregates = [] ∧ s ≠ .first ∧ st.reads base e.cols))
  | .project col cols => inferInstanceAs (Decidable (st.aggregates = [] ∧ st.distinct = false ∧
      (∀ c ∈ col :: cols, c ∈ st.columns base) ∧
      ∀ c ∈ keyCols st.orderBy, c ∈ st.computed → c ∈ col :: cols))
  | .projectAway cols => inferInstanceAs (Decidable (st.aggregates = [] ∧ st.distinct = false ∧
      st.select = [] ∧ st.reads base cols))
  | .extend defs => inferInstanceAs (Decidable (st.aggregates = [] ∧ st.distinct = false ∧
      st.select = [] ∧ ∀ d ∈ defs, d.1 ∉ st.columns base ∧ d.1 ∉ keyCols st.orderBy ∧ st.reads base d.2.cols))
  | .summarize agg aggs keys => inferInstanceAs (Decidable (st.aggregates = [] ∧
      st.distinct = false ∧ st.limit = none ∧ (∀ k ∈ keys, st.reads base k.2.cols) ∧
      ∀ a ∈ agg :: aggs, st.reads base a.2.cols))
  | .take n => inferInstanceAs (Decidable (∀ m ∈ st.limit, n ≤ m))
  | .sort key keys => inferInstanceAs (Decidable (st.orderBy = [] ∧ ∀ c ∈ keyCols (key :: keys), c ∈ st.columns base))
  | .top n key => inferInstanceAs (Decidable (st.orderBy = [] ∧
      (∀ c ∈ keyCols [key], c ∈ st.columns base) ∧ ∀ m ∈ st.limit, n ≤ m))
  | .count => inferInstanceAs (Decidable (st.aggregates = [] ∧ st.distinct = false ∧ st.limit = none))
  | .distinct cols => inferInstanceAs (Decidable (st.aggregates = [] ∧ s ≠ .first ∧ (∀ c ∈ cols, c ∈ st.columns base) ∧
      (cols = [] → st.select = [] → st.extend = [] ∧ st.exclude = [])))

def Op.seals : Op V → Bool
  | .where_ _ | .project _ _ | .projectAway _ => true
  | _ => false

/-- **The operator is in order**: nothing that was said about the groups is lost by the sealing, if
there is one, and the operator fits the state that it finds. -/
def InOrder (base : List Col) (st : QueryState V) (s : Standing) (op : Op V) : Prop :=
  if op.seals = true ∧ st.aggregated = true then
    s = .any ∧ st.limit = none ∧ Fits base st.sealed s op
  else Fits base st s op

instance (base : List Col) (st : QueryState V) (s : Standing) (op : Op V) : Decidable (InOrder base st s op) :=
  inferInstanceAs (Decidable (if op.seals = true ∧ st.aggregated = true then
    s = .any ∧ st.limit = none ∧ Fits base st.sealed s op else Fits base st s op))

def Ordered [Scalar V] (base : List Col) : QueryState V → Standing → List (Op V) → Prop
  | _, _, [] => True
  | st, s, op :: ops => InOrder base st s op ∧ Ordered base (applyOp st op) (op.standing s) ops

instance decidableOrdered [Scalar V] (base : List Col) :
    (st : QueryState V) → (s : Standing) → (ops : List (Op V)) → Decidable (Ordered base st s ops)
  | _, _, [] => isTrue trivial
  | st, s, op :: ops =>
    have := decidableOrdered base (applyOp st op) (op.standing s) ops
    inferInstanceAs (Decidable (InOrder base st s op ∧ Ordered base (applyOp st op) (op.standing s) ops))

def standing (ops : List (Op V)) (s : Standing) : Standing := ops.foldl (fun s op => op.standing s) s

theorem ordered_snoc [Scalar V] {base : List Col} {st : QueryState V} {s : Standing}
    {ops : List (Op V)} {op : Op V} : Ordered base st s (ops ++ [op]) ↔
      Ordered base st s ops ∧ InOrder base (ops.foldl applyOp st) (standing ops s) op := by
  induction ops generalizing st s with
  | nil => simp [Ordered, standing]
  | cons o ops ih =>
    simp only [cons_append, Ordered, foldl_cons, ih]
    exact and_assoc.symm

/-! ### The invariant -/

structure Inv (table : String) (base : List Col) (st : QueryState V) : Prop where
  plain : st.aggregates = [] → st.groupBy = [] ∧ st.aggregated = false
  distinct : st.distinct = true → st.select = [] → st.extend = [] ∧ st.exclude = []
  fresh : ∀ c ∈ st.computed, c ∈ st.source base → c ∈ st.exclude
  table : match st.ctes.getLast? with
    | some c => st.table = c.1 ∧ ∀ src, c.2.select.columns src = c.2.select.columns []
    | none => st.table = table

theorem inv_new (table : String) (base : List Col) : Inv table base (QueryState.new (V := V) table)
    where
  plain := fun _ => ⟨rfl, rfl⟩
  distinct := fun h => by cases h
  fresh := fun c hc => absurd hc not_mem_nil
  table := rfl

theorem inv_rebase {table : String} {base : List Col} {st : QueryState V} : Inv table base st.rebaseAggregation where
  plain := fun _ => ⟨rfl, rfl⟩
  distinct := fun h => by cases h
  fresh := fun c hc => absurd hc not_mem_nil
  table := by
    simp [QueryState.rebaseAggregation, Select.columns]

section Rows

variable {table : String} {base : List Col} {st : QueryState V}

def QueryState.items (st : QueryState V) : List (Item V) :=
  if st.select = [] then
    (if st.exclude = [] then .star else .starExcept st.exclude) ::
      st.extend.map QueryState.extendItem
  else st.select.map st.selectItem

theorem selectClause_plain (h : Inv table base st) (hagg : st.aggregates = []) :
    st.selectClause = .items st.distinct st.items := by
  unfold QueryState.selectClause QueryState.items
  rw [if_neg (not_not.mpr hagg)]
  cases hdist : st.distinct with
  | false =>
    by_cases hsel : st.select = []
    · simp [hsel]
    · simp [hsel]
  | true =>
    by_cases hsel : st.select = []
    · obtain ⟨hext, hexc⟩ := h.distinct hdist hsel
      simp [hsel, hext, hexc]
    · simp [hsel]

theorem selectClause_grouped (hagg : st.aggregates ≠ []) : st.selectClause = .grouped st.groupBy st.aggregates := by
  rw [QueryState.selectClause, if_pos hagg]

theorem item_columns_selectItem (src : List Col) (c : Col) : (st.selectItem c).columns src = [c] := by
  unfold QueryState.selectItem
  split
  · rfl
  · rfl

theorem columns_plain (h : Inv table base st) (hagg : st.aggregates = []) : st.columns base = if st.select = [] then
      (st.source base).filter (· ∉ st.exclude) ++ st.computed else st.select := by
  rw [QueryState.columns, selectClause_plain h hagg, Select.columns, QueryState.items]
  by_cases hsel : st.select = []
  · rw [if_pos hsel, if_pos hsel, flatMap_cons]
    congr 1
    · by_cases hexc : st.exclude = []
      · simp [hexc, Item.columns]
      · simp [hexc, Item.columns]
    · rw [flatMap_map]
      exact map_eq_flatMap.symm
  · rw [if_neg hsel, if_neg hsel, flatMap_map]
    simp [item_columns_selectItem]

variable [Scalar V]

def QueryState.value (st : QueryState V) (r : Row V) (c : Col) : V :=
  match st.extend.find? (·.1 = c) with
  | some d => d.2.eval (field r)
  | none => field r c

def QueryState.outRow (st : QueryState V) (r : Row V) : Row V :=
  if st.select = [] then
    (r.filter fun q => q.1 ∉ st.exclude) ++ st.extend.map fun d => (d.1, d.2.eval (field r))
  else st.select.map fun c => (c, st.value r c)

theorem cells_selectItem (r : Row V) (c : Col) : (st.selectItem c).cells r = [(c, st.value r c)] := by
  rw [QueryState.selectItem, QueryState.value]
  cases st.extend.find? (·.1 = c) with
  | some d | none => rfl

theorem itemsRow_items (r : Row V) : itemsRow st.items r = st.outRow r := by
  unfold itemsRow QueryState.items QueryState.outRow
  by_cases hsel : st.select = []
  · rw [if_pos hsel, if_pos hsel, flatMap_cons]
    congr 1
    · by_cases hexc : st.exclude = []
      · simp [hexc, Item.cells]
      · simp [hexc, Item.cells]
    · rw [flatMap_map]
      exact map_eq_flatMap.symm
  · rw [if_neg hsel, if_neg hsel, flatMap_map]
    simp only [cells_selectItem]
    exact map_eq_flatMap.symm

variable {r : Row V}

theorem value_of_notMem {c : Col} (hc : c ∉ st.computed) : st.value r c = field r c := by
  have hnone : st.extend.find? (·.1 = c) = none := by
    refine find?_eq_none.mpr fun d hd => ?_
    have hne : d.1 ≠ c := fun heq => hc (mem_map.mpr ⟨d, hd, heq⟩)
    simpa using hne
  rw [QueryState.value, hnone]

theorem field_defs {defs : List (Col × Expr V)} (ρ : Col → V) {c : Col}
    (hc : c ∈ defs.map Prod.fst) : some (field (defs.map fun d => (d.1, d.2.eval ρ)) c) =
      (defs.find? (·.1 = c)).map fun d => d.2.eval ρ := by
  induction defs with
  | nil => cases hc
  | cons d defs ih =>
    by_cases hd : c = d.1
    · subst hd
      simp
    · have hmem : c ∈ defs.map Prod.fst := by simpa [hd] using hc
      rw [map_cons, field_cons_of_ne hd, ih hmem, find?_cons_of_neg]
      simpa using fun heq => hd (Eq.symm heq)

theorem field_outRow (h : Inv table base st) (hagg : st.aggregates = []) {c : Col}
    (hr : r.map Prod.fst = st.source base) (hc : c ∈ st.columns base) : field (st.outRow r) c = st.value r c := by
  rw [columns_plain h hagg] at hc
  unfold QueryState.outRow
  by_cases hsel : st.select = []
  · rw [if_pos hsel] at hc ⊢
    have hkeys : (st.extend.map fun d => (d.1, d.2.eval (field r))).map Prod.fst = st.computed := by
      rw [map_map]
      rfl
    by_cases hcomp : c ∈ st.computed
    · -- the columns that are left of the table do not have the name
      have hnot : c ∉ (r.filter fun q => q.1 ∉ st.exclude).map Prod.fst := by
        intro hmem
        obtain ⟨q, hq, rfl⟩ := mem_map.mp hmem
        obtain ⟨hqr, hqe⟩ := mem_filter.mp hq
        have hsrc : q.1 ∈ st.source base := hr ▸ mem_map_of_mem hqr
        exact (of_decide_eq_true hqe) (h.fresh q.1 hcomp hsrc)
      rw [field_append_right hnot]
      have hdefs := field_defs (field r) hcomp
      rw [QueryState.value]
      cases hfind : st.extend.find? (·.1 = c) with
      | none => simp [hfind] at hdefs
      | some d => simpa [hfind] using hdefs
    · have hkept : c ∉ st.exclude := by
        rcases mem_append.mp hc with hc | hc
        · exact of_decide_eq_true (mem_filter.mp hc).2
        · exact absurd hc hcomp
      have hleft : c ∉ (st.extend.map fun d => (d.1, d.2.eval (field r))).map Prod.fst := by
        rwa [hkeys]
      have hfilter := field_filter (r := r) (p := fun x => decide (x ∉ st.exclude))
        (decide_eq_true hkept)
      rw [field_append_left hleft, value_of_notMem hcomp, ← hfilter]
  · rw [if_neg hsel] at hc ⊢
    exact field_map hc

theorem field_outRow_of_reads (h : Inv table base st) (hagg : st.aggregates = [])
    (hr : r.map Prod.fst = st.source base) {cols : List Col} (hreads : st.reads base cols) :
    ∀ c ∈ cols, field (st.outRow r) c = field r c := by
  intro c hc
  rw [field_outRow h hagg hr (hreads c hc).1, value_of_notMem (hreads c hc).2]

theorem eval_outRow_of_reads (h : Inv table base st) (hagg : st.aggregates = [])
    (hr : r.map Prod.fst = st.source base) {e : Expr V} (hreads : st.reads base e.cols) :
    e.eval (field (st.outRow r)) = e.eval (field r) :=
  e.eval_congr _ _ (field_outRow_of_reads h hagg hr hreads)

theorem sortEnv_outRow (h : Inv table base st) (hagg : st.aggregates = [])
    (hr : r.map Prod.fst = st.source base) (c : Col) : sortEnv (st.columns base) (r, st.outRow r) c =
      if c ∈ st.columns base then st.value r c else field r c := by
  unfold sortEnv
  split
  · rename_i hc
    exact field_outRow h hagg hr hc
  · rfl

end Rows

section Steps

variable {table : String} {base : List Col} {st : QueryState V}

theorem inv_sealed (h : Inv table base st) : Inv table base st.sealed := by
  unfold QueryState.sealed
  split
  · exact inv_rebase
  · exact h

theorem Inv.where_ (h : Inv table base st) (e : Expr V) :
    Inv table base { st with whereClauses := st.whereClauses ++ [e] } :=
  ⟨h.plain, h.distinct, h.fresh, h.table⟩

theorem Inv.project (h : Inv table base st) (c : Col) (cols : List Col) :
    Inv table base { st with select := c :: cols } :=
  ⟨h.plain, fun _ hsel => absurd hsel (cons_ne_nil c cols), h.fresh, h.table⟩

theorem Inv.projectAway (h : Inv table base st) {cols : List Col} (hdist : st.distinct = false) :
    Inv table base { st with exclude := st.exclude ++ cols } :=
  ⟨h.plain, fun hd => absurd (hdist.symm.trans hd) (by simp),
    fun c hc hsrc => mem_append_left _ (h.fresh c hc hsrc), h.table⟩

theorem Inv.extend (h : Inv table base st) (hagg : st.aggregates = []) (hdist : st.distinct = false)
    (hsel : st.select = []) {defs : List (Col × Expr V)}
    (hnew : ∀ d ∈ defs, d.1 ∉ st.columns base) : Inv table base (st.opExtend defs) := by
  refine ⟨h.plain, fun hd => absurd (hdist.symm.trans hd) (by simp), ?_, h.table⟩
  intro c hc hsrc
  rw [QueryState.computed, QueryState.opExtend, map_append] at hc
  rcases mem_append.mp hc with hc | hc
  · exact h.fresh c hc hsrc
  · -- a new name that the table has is the name of a column that was projected away
    obtain ⟨d, hd, rfl⟩ := mem_map.mp hc
    have hnot := hnew d hd
    rw [columns_plain h hagg, if_pos hsel] at hnot
    by_contra hexc
    exact hnot (mem_append_left _ (mem_filter.mpr ⟨hsrc, decide_eq_true hexc⟩))

theorem sealed_plain (h : Inv table base st) (hagg : st.aggregates = []) : st.sealed = st := by
  rw [QueryState.sealed, (h.plain hagg).2]
  rfl

variable [Scalar V]

theorem applyOp_sealed {op : Op V} (hseals : op.seals = true) (hagg : st.aggregated = true) :
    applyOp st op = applyOp st.sealed op := by
  have hsealed : st.sealed.sealed = st.sealed := by
    rw [QueryState.sealed, QueryState.sealed, if_pos hagg]
    rfl
  cases op with
  | where_ e => simp only [applyOp, QueryState.opWhere, hsealed]
  | project c cols | projectAway cols => simp only [applyOp, QueryState.opProject, hsealed]
  | _ => cases hseals

theorem inv_fits (h : Inv table base st) {s : Standing} {op : Op V} (hfits : Fits base st s op) :
    Inv table base (applyOp st op) := by
  cases op with
  | where_ e =>
    rw [applyOp, QueryState.opWhere, sealed_plain h hfits.1]
    exact h.where_ e
  | project c cols =>
    rw [applyOp, QueryState.opProject, sealed_plain h hfits.1]
    exact h.project c cols
  | projectAway cols =>
    rw [applyOp, QueryState.opProject, sealed_plain h hfits.1]
    exact h.projectAway hfits.2.1
  | extend defs =>
    obtain ⟨hagg, hdist, hsel, hdefs⟩ := hfits
    exact h.extend hagg hdist hsel fun d hd => (hdefs d hd).1
  | summarize agg aggs keys =>
    refine ⟨fun hagg => ?_, h.distinct, h.fresh, h.table⟩
    simp [applyOp, QueryState.opSummarize] at hagg
  | take n | sort key keys | top n key => exact ⟨h.plain, h.distinct, h.fresh, h.table⟩
  | count =>
    refine ⟨fun hagg => ?_, h.distinct, h.fresh, h.table⟩
    simp [applyOp, QueryState.opCount] at hagg
  | distinct cols =>
    refine ⟨h.plain, fun _ hsel => ?_, h.fresh, h.table⟩
    by_cases hcols : cols = []
    · exact hfits.2.2.2 hcols (by simpa [applyOp, QueryState.opDistinct, hcols] using hsel)
    · simp [applyOp, QueryState.opDistinct, hcols] at hsel

theorem inv_applyOp (h : Inv table base st) {s : Standing} {op : Op V}
    (hop : InOrder base st s op) : Inv table base (applyOp st op) := by
  unfold InOrder at hop
  split at hop
  · rename_i hseal
    rw [applyOp_sealed hseal.1 hseal.2]
    exact inv_fits (inv_sealed h) hop.2.2
  · exact inv_fits h hop

theorem inv_foldl {s : Standing} {ops : List (Op V)} (h : Inv table base st)
    (hops : Ordered base st s ops) : Inv table base (ops.foldl applyOp st) := by
  induction ops generalizing st s with
  | nil => exact h
  | cons op ops ih => exact ih (inv_applyOp h hops.1) hops.2

end Steps

end Kql
