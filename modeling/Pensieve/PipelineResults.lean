/-
**The results of the flat query are results of the pipeline.**

`Pensieve/PipelineOrder.lean` says when an operator may be folded into the state.  Here every such
operator is followed back through the clauses of the query.
-/

import Pensieve.PipelineOrder

namespace Kql

open List
open Relational Sql

variable {V : Type}

theorem snd_pairs (f : Row V → Row V) (l : List (Row V)) : (l.map fun r => (r, f r)).map Prod.snd = l.map f := by
  rw [map_map]
  rfl

theorem snd_behind (l : List (Row V)) : (l.map (Prod.mk ([] : Row V))).map Prod.snd = l := by
  rw [map_map]
  exact map_id l

structure QueryState.Blank (st : QueryState V) : Prop where
  select : st.select = []
  exclude : st.exclude = []
  extend : st.extend = []
  aggregates : st.aggregates = []

theorem QueryState.Blank.columns {table : String} {base : List Col} {st : QueryState V}
    (hb : st.Blank) (h : Inv table base st) : st.columns base = st.source base := by
  rw [columns_plain h hb.aggregates, if_pos hb.select]
  simp [hb.exclude, QueryState.computed, hb.extend]

variable [Scalar V]

theorem QueryState.Blank.outRow {st : QueryState V} (hb : st.Blank) (r : Row V) : st.outRow r = r := by
  simp [QueryState.outRow, hb.select, hb.exclude, hb.extend]

/-! ### What a pipeline may have made of a table -/

variable {res : List (Row V)} {s : Standing}

section Results

variable {table : String} {base : List Col} {st : QueryState V} {src : Table V}

def QueryState.kept (st : QueryState V) (src : Table V) : List (Row V) := src.rows.filter (holds st.whereClauses)

def QueryState.keyEnv (base : List Col) (st : QueryState V) (r : Row V) (c : Col) : V :=
  if c ∈ st.columns base then st.value r c else field r c

/-- The order of `ORDER BY` among the rows of the result and those behind them. -/
def QueryState.pairLe (base : List Col) (st : QueryState V) (p q : Row V × Row V) : Bool :=
  precedes st.orderBy (sortEnv (st.columns base) p) (sortEnv (st.columns base) q)

def QueryState.keyLe (base : List Col) (st : QueryState V) (a b : Row V) : Bool :=
  precedes st.orderBy (st.keyEnv base a) (st.keyEnv base b)

def QueryState.outLe (base : List Col) (st : QueryState V) (a b : Row V) : Bool := st.pairLe base ([], a) ([], b)

theorem orders_keyLe (base : List Col) (st : QueryState V) : Orders (st.keyLe base) :=
  orders_precedes st.orderBy (st.keyEnv base)

theorem orders_outLe (base : List Col) (st : QueryState V) : Orders (st.outLe base) :=
  orders_precedes st.orderBy fun a => sortEnv (st.columns base) ([], a)

theorem kept_wf (hsrc : src.cols = st.source base) {r : Row V} (hr : r ∈ st.kept src) :
    r.map Prod.fst = st.source base :=
  (src.wf r (mem_of_mem_filter hr)).trans hsrc

variable [DecidableEq V]

/-- **What a pipeline may have made of the table**: the rows of the `SELECT` list in the standing
that the operators have left them in.  The query chooses among them. -/
def QueryState.Reach (base : List Col) (st : QueryState V) (s : Standing) (src : Table V) (res : List (Row V)) : Prop :=
  ∃ whole out, st.selectClause.Rows (st.kept src) whole ∧
    Arranged s (st.pairLe base) st.limit whole out ∧ res = out.map Prod.snd

theorem reach_of_rows (hsrc : src.cols = st.source base)
    (hrows : st.toSql.body.Rows src res) : st.Reach base s src res := by
  obtain ⟨out, hout, hsorted, rfl⟩ := hrows
  have hcols : st.selectClause.columns src.cols = st.columns base := by
    rw [hsrc]
    rfl
  have hsorted' : out.Pairwise fun p q => st.pairLe base p q = true := by
    unfold QueryState.pairLe
    rw [← hcols]
    exact hsorted
  exact ⟨out, _, hout, Arranged.of_first ⟨out, .refl _, hsorted', rfl⟩, rfl⟩

theorem reach_items (h : Inv table base st) (hagg : st.aggregates = []) (hdist : st.distinct = false)
    (hsrc : src.cols = st.source base) : st.Reach base s src res ↔ ∃ l : List (Row V),
      Arranged s (st.keyLe base) st.limit (st.kept src) l ∧ res = l.map st.outRow := by
  have hsel : st.selectClause = .items false st.items := hdist ▸ selectClause_plain h hagg
  have hrow : itemsRow st.items = st.outRow := funext itemsRow_items
  have hundo : Function.LeftInverse Prod.fst fun r : Row V => (r, st.outRow r) := fun _ => rfl
  have henv : ∀ r ∈ st.kept src, sortEnv (st.columns base) (r, st.outRow r) = st.keyEnv base r := by
    intro r hr
    exact funext fun c => sortEnv_outRow h hagg (kept_wf hsrc hr) c
  have hle : ∀ a ∈ st.kept src, ∀ b ∈ st.kept src,
      st.pairLe base (a, st.outRow a) (b, st.outRow b) = st.keyLe base a b := by
    intro a ha b hb
    rw [QueryState.pairLe, henv a ha, henv b hb, QueryState.keyLe]
  unfold QueryState.Reach
  rw [hsel]
  constructor
  · rintro ⟨whole, out, ⟨w, hw, rfl⟩, hout, rfl⟩
    rw [hrow] at hout
    obtain ⟨l, hl, rfl⟩ := (Arranged.map_iff hundo).mp hout
    exact ⟨l, (hl.of_perm hw).congr_le hle, snd_pairs st.outRow l⟩
  · rintro ⟨l, hl, rfl⟩
    refine ⟨_, l.map fun r => (r, st.outRow r), ⟨_, .refl _, rfl⟩, ?_, (snd_pairs _ l).symm⟩
    rw [hrow]
    exact (Arranged.map_iff hundo).mpr ⟨l, hl.congr_le fun a ha b hb => (hle a ha b hb).symm, rfl⟩

theorem reach_distinct (h : Inv table base st) (hagg : st.aggregates = []) (hdist : st.distinct = true) :
    st.Reach base s src res ↔ Arranged s (st.outLe base) st.limit ((st.kept src).map st.outRow).dedup res := by
  have hsel : st.selectClause = .items true st.items := hdist ▸ selectClause_plain h hagg
  have hrow : itemsRow st.items = st.outRow := funext itemsRow_items
  have hundo : Function.LeftInverse Prod.snd (Prod.mk ([] : Row V)) := fun _ : Row V => rfl
  unfold QueryState.Reach
  rw [hsel]
  constructor
  · rintro ⟨whole, out, ⟨d, hd, hmem, rfl⟩, hout, rfl⟩
    obtain ⟨l, hl, rfl⟩ := (Arranged.map_iff hundo).mp hout
    rw [hrow] at hmem
    have hperm : d.Perm ((st.kept src).map st.outRow).dedup :=
      (perm_ext_iff_of_nodup hd (nodup_dedup _)).mpr fun x => by
        rw [hmem, mem_dedup]
    rw [snd_behind]
    exact hl.of_perm hperm
  · intro hres
    refine ⟨_, res.map (Prod.mk []), ⟨_, nodup_dedup _, fun x => ?_, rfl⟩,
      (Arranged.map_iff hundo).mpr ⟨res, hres, rfl⟩, (snd_behind res).symm⟩
    rw [mem_dedup, hrow]

theorem reach_grouped (hagg : st.aggregates ≠ []) : st.Reach base s src res ↔ ∃ l : List (Row V), l.Perm (st.kept src) ∧
      Arranged s (st.outLe base) st.limit (groupRows st.groupBy st.aggregates l) res := by
  have hundo : Function.LeftInverse Prod.snd (Prod.mk ([] : Row V)) := fun _ : Row V => rfl
  unfold QueryState.Reach
  rw [selectClause_grouped hagg]
  constructor
  · rintro ⟨whole, out, ⟨l, g, hl, hg, rfl⟩, hout, rfl⟩
    obtain ⟨l', hl', rfl⟩ := (Arranged.map_iff hundo).mp hout
    rw [snd_behind]
    exact ⟨l, hl, hl'.of_perm hg⟩
  · rintro ⟨l, hl, hres⟩
    exact ⟨_, res.map (Prod.mk []), ⟨l, _, hl, .refl _, rfl⟩,
      (Arranged.map_iff hundo).mpr ⟨res, hres, rfl⟩, (snd_behind res).symm⟩

end Results

/-! ### One operator -/

def QueryState.rel (base : List Col) (st : QueryState V) (s : Standing) (res : List (Row V)) : Rel V :=
  ⟨st.columns base, res, decide (s ≠ .any)⟩

variable {res' : List (Row V)}

section Operators

variable {table : String} {base : List Col} {st : QueryState V} {src : Table V} {s : Standing}

theorem holds_concat (filters : List (Expr V)) (e : Expr V) : holds (filters ++ [e]) =
      fun r => holds filters r && Scalar.truth (e.eval (field r)) := by
  funext r
  simp [holds]

theorem kept_where (e : Expr V) : QueryState.kept { st with whereClauses := st.whereClauses ++ [e] } src =
      (st.kept src).filter fun r => Scalar.truth (e.eval (field r)) := by
  rw [QueryState.kept, QueryState.kept, filter_filter]
  simp only [holds_concat, Bool.and_comm]

variable [DecidableEq V]

theorem step_where (h : Inv table base st) (hsrc : src.cols = st.source base) {e : Expr V}
    (hfits : Fits base st s (.where_ e))
    (hreach : QueryState.Reach base { st with whereClauses := st.whereClauses ++ [e] } s src res') :
    ∃ res, st.Reach base s src res ∧ Step (st.rel base s res)
      (QueryState.rel base { st with whereClauses := st.whereClauses ++ [e] } s res')
      (.where_ e) := by
  obtain ⟨hagg, hs, hreads⟩ := hfits
  have h' : Inv table base { st with whereClauses := st.whereClauses ++ [e] } := h.where_ e
  have hcols : e.cols ⊆ st.columns base := fun c hc => (hreads c hc).1
  -- the filter reads the same values of a row and of what the query makes of it
  have hsame : ∀ r ∈ st.kept src, e.eval (field (st.outRow r)) = e.eval (field r) := by
    intro r hr
    exact eval_outRow_of_reads h hagg (kept_wf hsrc hr) hreads
  rcases Bool.eq_false_or_eq_true st.distinct with hdist | hdist
  case inr =>
      obtain ⟨l', hl', rfl⟩ := (reach_items h' hagg hdist hsrc).mp hreach
      rw [kept_where] at hl'
      obtain ⟨l, hl, rfl⟩ := Arranged.exists_filtered (orders_keyLe base st) hs hl'
      refine ⟨_, (reach_items h hagg hdist hsrc).mpr ⟨l, hl, rfl⟩, hcols, ?_⟩
      have hfilter : (l.map st.outRow).filter (fun r => Scalar.truth (e.eval (field r))) =
          (l.filter fun r => Scalar.truth (e.eval (field r))).map st.outRow := by
        rw [filter_map]
        congr 1
        refine filter_congr fun r hr => ?_
        rw [Function.comp_apply, hsame r (hl.subset hr)]
      simp only [QueryState.rel, hfilter]
      rfl
  case inl =>
      have hperm : (((st.kept src).filter fun r => Scalar.truth (e.eval (field r))).map
          st.outRow).dedup.Perm (((st.kept src).map st.outRow).dedup.filter
            fun r => Scalar.truth (e.eval (field r))) := by
        refine (perm_ext_iff_of_nodup (nodup_dedup _) ((nodup_dedup _).filter _)).mpr fun x => ?_
        rw [mem_dedup, mem_filter, mem_dedup, mem_map, mem_map]
        constructor
        · rintro ⟨r, hr, rfl⟩
          obtain ⟨hkept, htrue⟩ := mem_filter.mp hr
          refine ⟨⟨r, hkept, rfl⟩, ?_⟩
          rwa [hsame r hkept]
        · rintro ⟨⟨r, hkept, rfl⟩, htrue⟩
          rw [hsame r hkept] at htrue
          exact ⟨r, mem_filter.mpr ⟨hkept, htrue⟩, rfl⟩
      have hres := (reach_distinct h' hagg hdist).mp hreach
      rw [kept_where] at hres
      obtain ⟨l, hl, rfl⟩ := Arranged.exists_filtered (orders_outLe base st) hs (hres.of_perm hperm)
      exact ⟨l, (reach_distinct h hagg hdist).mpr hl, hcols, rfl⟩

theorem step_take {n : ℕ} (hfits : Fits base st s (.take n))
    (hreach : (st.opTake n).Reach base s.taken src res') : ∃ res, st.Reach base s src res ∧
      Step (st.rel base s res) ((st.opTake n).rel base s.taken res') (.take n) := by
  obtain ⟨whole, out, hwhole, hout, rfl⟩ := hreach
  obtain ⟨l, hl, rfl⟩ := Arranged.exists_limited hfits hout
  refine ⟨l.map Prod.snd, ⟨whole, l, hwhole, hl, rfl⟩, l.map Prod.snd, ?_, ?_⟩
  · split
    · rfl
    · exact .refl _
  · have hstanding : decide (s.taken ≠ .any) = decide (s ≠ .any) := by cases s <;> rfl
    simp only [QueryState.rel, hstanding, map_take]
    rfl

theorem step_sort {key : Expr V × Bool} {keys : List (Expr V × Bool)}
    (hfits : Fits base st s (.sort key keys)) (hreach : (st.opSort (key :: keys)).Reach base .sorted src res') :
    ∃ res, st.Reach base s src res ∧ Sorts (key :: keys) (st.rel base s res)
      ((st.opSort (key :: keys)).rel base .sorted res') := by
  obtain ⟨horder, hkeys⟩ := hfits
  obtain ⟨whole, out, hwhole, hout, rfl⟩ := hreach
  have hany : ∀ p q, st.pairLe base p q = true := by
    intro p q
    rw [QueryState.pairLe, horder]
    rfl
  obtain ⟨l, hl, hperm, hsorted⟩ := Arranged.exists_unsorted (s := s) hany hout
  refine ⟨l.map Prod.snd, ⟨whole, l, hwhole, hl, rfl⟩, hkeys, _, hperm.map Prod.snd, ?_, rfl⟩
  -- the keys are columns of the result
  have hsame : ∀ x : Row V × Row V, ∀ c ∈ keyCols (key :: keys), sortEnv (st.columns base) x c = field x.2 c := by
    intro x c hc
    rw [sortEnv, if_pos (hkeys hc)]
  rw [pairwise_map]
  refine hsorted.imp fun {p q} hpq => ?_
  rw [QueryState.pairLe, QueryState.opSort, horder] at hpq
  rwa [← precedes_congr (hsame p) (hsame q)]

theorem step_top {n : ℕ} {key : Expr V × Bool} (hfits : Fits base st s (.top n key)) (hreach : (st.opTop n key).Reach base .first src res') :
    ∃ res, st.Reach base s src res ∧ Step (st.rel base s res) ((st.opTop n key).rel base .first res') (.top n key) := by
  obtain ⟨horder, hkeys, hlimit⟩ := hfits
  -- `top` is a sort and a `take`
  have hboth : st.opTop n key = (st.opSort [key]).opTake n := rfl
  rw [hboth] at hreach ⊢
  have hsorts : Fits base st s (.sort key []) := ⟨horder, hkeys⟩
  have htakes : Fits base (st.opSort [key]) .sorted (.take n) := hlimit
  obtain ⟨mid, hmid, htake⟩ := step_take htakes hreach
  obtain ⟨res, hres, hsort⟩ := step_sort hsorts hmid
  exact ⟨res, hres, _, hsort, htake⟩

/-- A projection comes from the state before it if it makes of a row what the operator makes of it,
and if the sort keys read the same values before and after. -/
theorem step_projection {st' : QueryState V} (h : Inv table base st) (h' : Inv table base st')
    (hagg : st.aggregates = []) (hagg' : st'.aggregates = []) (hdist : st.distinct = false)
    (hdist' : st'.distinct = false) (hsrc : src.cols = st.source base)
    (hsrc' : st'.source base = st.source base) (hkept : st'.kept src = st.kept src)
    (horder : st'.orderBy = st.orderBy) (hlimit : st'.limit = st.limit) {f : Row V → Row V}
    (hout : ∀ r ∈ st.kept src, st'.outRow r = f (st.outRow r))
    (hkeys : ∀ r, ∀ c ∈ keyCols st.orderBy, st'.keyEnv base r c = st.keyEnv base r c) (hreach : st'.Reach base s src res') :
    ∃ res, st.Reach base s src res ∧ res' = res.map f := by
  obtain ⟨l, hl, rfl⟩ := (reach_items h' hagg' hdist' (hsrc.trans hsrc'.symm)).mp hreach
  rw [hkept, hlimit] at hl
  have hle : ∀ a b, st'.keyLe base a b = st.keyLe base a b := by
    intro a b
    rw [QueryState.keyLe, QueryState.keyLe, horder]
    exact precedes_congr (hkeys a) (hkeys b)
  refine ⟨_, (reach_items h hagg hdist hsrc).mpr ⟨l, hl.congr_le fun a _ b _ => hle a b, rfl⟩, ?_⟩
  rw [map_map]
  exact map_congr_left fun r hr => hout r (hl.subset hr)

theorem step_project (h : Inv table base st) (hsrc : src.cols = st.source base) {c : Col}
    {cols : List Col} (hfits : Fits base st s (.project c cols))
    (hreach : QueryState.Reach base { st with select := c :: cols } s src res') :
    ∃ res, st.Reach base s src res ∧ Step (st.rel base s res)
      (QueryState.rel base { st with select := c :: cols } s res') (.project c cols) := by
  obtain ⟨hagg, hdist, hsub, hcomp⟩ := hfits
  have h' : Inv table base { st with select := c :: cols } := h.project c cols
  have hcols : QueryState.columns base { st with select := c :: cols } = c :: cols := by
    rw [columns_plain h' hagg, if_neg (cons_ne_nil c cols)]
  have hout : ∀ r ∈ st.kept src, QueryState.outRow { st with select := c :: cols } r =
      pick (c :: cols) (st.outRow r) := by
    intro r hr
    rw [QueryState.outRow, if_neg (cons_ne_nil c cols), pick]
    refine map_congr_left fun x hx => ?_
    rw [field_outRow h hagg (kept_wf hsrc hr) (hsub hx)]
    rfl
  have hkeys : ∀ r, ∀ x ∈ keyCols st.orderBy,
      QueryState.keyEnv base { st with select := c :: cols } r x = st.keyEnv base r x := by
    intro r x hx
    rw [QueryState.keyEnv, QueryState.keyEnv, hcols]
    by_cases hmem : x ∈ c :: cols
    · rw [if_pos hmem, if_pos (hsub hmem)]
      rfl
    · -- a column that is dropped is one of the table
      rw [if_neg hmem, value_of_notMem fun hc => hmem (hcomp x hx hc), ite_self]
  obtain ⟨res, hres, rfl⟩ := step_projection h h' hagg hagg hdist hdist hsrc rfl rfl rfl rfl hout hkeys hreach
  refine ⟨res, hres, hsub, ?_⟩
  simp only [QueryState.rel, hcols]

theorem step_projectAway (h : Inv table base st) (hsrc : src.cols = st.source base)
    {cols : List Col} (hfits : Fits base st s (.projectAway cols))
    (hreach : QueryState.Reach base { st with exclude := st.exclude ++ cols } s src res') :
    ∃ res, st.Reach base s src res ∧ Step (st.rel base s res)
      (QueryState.rel base { st with exclude := st.exclude ++ cols } s res')
      (.projectAway cols) := by
  obtain ⟨hagg, hdist, hsel, hreads⟩ := hfits
  have h' : Inv table base { st with exclude := st.exclude ++ cols } := h.projectAway hdist
  have hnames : st.computed.filter (· ∉ cols) = st.computed := by
    refine filter_eq_self.mpr fun x hx => ?_
    exact decide_eq_true fun hmem => (hreads x hmem).2 hx
  have hcols : QueryState.columns base { st with exclude := st.exclude ++ cols } =
      (st.columns base).filter (· ∉ cols) := by
    rw [columns_plain h' hagg, columns_plain h hagg, if_pos hsel, if_pos hsel, filter_append, hnames, filter_filter]
    congr 1
    refine filter_congr fun x _ => ?_
    simp [and_comm]
  have hout : ∀ r ∈ st.kept src, QueryState.outRow { st with exclude := st.exclude ++ cols } r =
      (st.outRow r).filter fun q => q.1 ∉ cols := by
    intro r _
    rw [QueryState.outRow, QueryState.outRow, if_pos hsel, if_pos hsel, filter_append, filter_filter]
    congr 1
    · refine filter_congr fun x _ => ?_
      simp [and_comm]
    · refine (filter_eq_self.mpr fun q hq => ?_).symm
      obtain ⟨d, hd, rfl⟩ := mem_map.mp hq
      exact decide_eq_true fun hmem => (hreads _ hmem).2 (mem_map_of_mem hd)
  have hkeys : ∀ r, ∀ x ∈ keyCols st.orderBy, QueryState.keyEnv base { st with exclude := st.exclude ++ cols } r x =
        st.keyEnv base r x := by
    intro r x _
    rw [QueryState.keyEnv, QueryState.keyEnv, hcols]
    by_cases hmem : x ∈ cols
    · have hout : x ∉ (st.columns base).filter (· ∉ cols) := by
        simp [hmem]
      rw [if_neg hout, value_of_notMem (hreads x hmem).2, ite_self]
    · by_cases hin : x ∈ st.columns base
      · have hkept : x ∈ (st.columns base).filter (· ∉ cols) := by
          simp [hmem, hin]
        rw [if_pos hkept, if_pos hin]
        rfl
      · have hkept : x ∉ (st.columns base).filter (· ∉ cols) := by
          simp [hin]
        rw [if_neg hkept, if_neg hin]
  obtain ⟨res, hres, rfl⟩ := step_projection h h' hagg hagg hdist hdist hsrc rfl rfl rfl rfl hout hkeys hreach
  refine ⟨res, hres, fun x hx => (hreads x hx).1, ?_⟩
  simp only [QueryState.rel, hcols]

theorem step_extend (h : Inv table base st) (hsrc : src.cols = st.source base)
    {defs : List (Col × Expr V)} (hfits : Fits base st s (.extend defs))
    (hreach : (st.opExtend defs).Reach base s src res') : ∃ res, st.Reach base s src res ∧
      Step (st.rel base s res) ((st.opExtend defs).rel base s res') (.extend defs) := by
  obtain ⟨hagg, hdist, hsel, hdefs⟩ := hfits
  have hsel' : (st.opExtend defs).select = [] := hsel
  have h' : Inv table base (st.opExtend defs) := h.extend hagg hdist hsel fun d hd => (hdefs d hd).1
  have hnames : (defs.map Prod.fst).filter (· ∉ st.columns base) = defs.map Prod.fst := by
    refine filter_eq_self.mpr fun x hx => ?_
    obtain ⟨d, hd, rfl⟩ := mem_map.mp hx
    exact decide_eq_true (hdefs d hd).1
  have hcols : (st.opExtend defs).columns base = st.columns base ++ defs.map Prod.fst := by
    rw [columns_plain h' hagg, columns_plain h hagg, if_pos hsel', if_pos hsel, append_assoc]
    congr 1
    exact map_append
  have hfind : ∀ x, x ∉ defs.map Prod.fst → (st.opExtend defs).extend.find? (·.1 = x) =
      st.extend.find? (·.1 = x) := by
    intro x hx
    have hnone : defs.find? (·.1 = x) = none := by
      refine find?_eq_none.mpr fun d hd => ?_
      simpa using fun heq : d.1 = x => hx (heq ▸ mem_map_of_mem hd)
    rw [QueryState.opExtend, find?_append, hnone, Option.or_none]
  have hout : ∀ r ∈ st.kept src, (st.opExtend defs).outRow r = extendRow (st.columns base) defs (st.outRow r) := by
    intro r hr
    have hold : defs.filter (·.1 ∈ st.columns base) = [] :=
      filter_eq_nil_iff.mpr fun d hd => by simpa using (hdefs d hd).1
    have hnew : defs.filter (·.1 ∉ st.columns base) = defs :=
      filter_eq_self.mpr fun d hd => decide_eq_true (hdefs d hd).1
    have hvalues : (defs.map fun d => (d.1, d.2.eval (field (st.outRow r)))) =
        defs.map fun d => (d.1, d.2.eval (field r)) := by
      refine map_congr_left fun d hd => ?_
      rw [eval_outRow_of_reads h hagg (kept_wf hsrc hr) (hdefs d hd).2.2]
    rw [extendRow, hold, hnew, hvalues]
    simp only [find?_nil, map_id']
    rw [QueryState.outRow, QueryState.outRow, if_pos hsel', if_pos hsel, append_assoc]
    congr 1
    exact map_append
  have hkeys : ∀ r, ∀ x ∈ keyCols st.orderBy, (st.opExtend defs).keyEnv base r x = st.keyEnv base r x := by
    intro r x hx
    have hnot : x ∉ defs.map Prod.fst := by
      intro hmem
      obtain ⟨d, hd, rfl⟩ := mem_map.mp hmem
      exact (hdefs d hd).2.1 hx
    rw [QueryState.keyEnv, QueryState.keyEnv, hcols, QueryState.value, hfind x hnot]
    by_cases hin : x ∈ st.columns base
    · rw [if_pos (mem_append_left _ hin), if_pos hin]
      rfl
    · rw [if_neg fun hmem => (mem_append.mp hmem).elim hin hnot, if_neg hin]
  obtain ⟨res, hres, rfl⟩ := step_projection h h' hagg hagg hdist hdist hsrc rfl rfl rfl rfl hout hkeys hreach
  refine ⟨res, hres, fun d hd x hx => ((hdefs d hd).2.2 x hx).1, ?_⟩
  show (⟨_, _, _⟩ : Rel V) = ⟨st.columns base ++ (defs.map Prod.fst).filter (· ∉ st.columns base), _, _⟩
  rw [hnames, ← hcols]
  rfl

/-- A grouping of a state without limit and without duplicates to remove reads the rows of the
result; an order that was asked for does not matter to it. -/
theorem step_grouping {st' : QueryState V} (h : Inv table base st) (hagg : st.aggregates = [])
    (hdist : st.distinct = false) (hlimit : st.limit = none)
    (hsrc : src.cols = st.source base) (hagg' : st'.aggregates ≠ [])
    (hkept : st'.kept src = st.kept src) (hlimit' : st'.limit = none)
    (hkeys : ∀ k ∈ st'.groupBy, st.reads base k.2.cols) (haggs : ∀ a ∈ st'.aggregates, st.reads base a.2.cols)
    (hreach : st'.Reach base .any src res') : ∃ res l : List (Row V), st.Reach base s src res ∧ l.Perm res ∧
      res'.Perm (groupRows st'.groupBy st'.aggregates l) := by
  obtain ⟨l, hl, hres'⟩ := (reach_grouped hagg').mp hreach
  rw [hkept] at hl
  rw [hlimit'] at hres'
  have hwf : ∀ r ∈ l, r.map Prod.fst = st.source base := fun r hr =>
    kept_wf hsrc (hl.mem_iff.mp hr)
  obtain ⟨l₀, hl₀⟩ := Arranged.exists_of_whole (orders_keyLe base st) s none (st.kept src)
  refine ⟨l₀.map st.outRow, l.map st.outRow, (reach_items h hagg hdist hsrc).mpr
    ⟨l₀, hlimit.symm ▸ hl₀, rfl⟩, (hl.trans hl₀.perm.symm).map st.outRow, ?_⟩
  have hsame : groupRows st'.groupBy st'.aggregates (l.map st.outRow) = groupRows st'.groupBy st'.aggregates l :=
    groupRows_map (fun r hr k hk => field_outRow_of_reads h hagg (hwf r hr) (hkeys k hk))
      fun r hr a ha => field_outRow_of_reads h hagg (hwf r hr) (haggs a ha)
  rw [hsame]
  exact hres'.perm

theorem step_summarize (h : Inv table base st) (hsrc : src.cols = st.source base)
    {agg : Col × Aggregate V} {aggs : List (Col × Aggregate V)} {keys : List (Col × Expr V)}
    (hfits : Fits base st s (.summarize agg aggs keys))
    (hreach : (st.opSummarize (agg :: aggs) keys).Reach base .any src res') :
    ∃ res, st.Reach base s src res ∧ Step (st.rel base s res)
      ((st.opSummarize (agg :: aggs) keys).rel base .any res') (.summarize agg aggs keys) := by
  obtain ⟨hagg, hdist, hlimit, hkeys, haggs⟩ := hfits
  have hgroup : (st.opSummarize (agg :: aggs) keys).groupBy = keys := by
    simp [QueryState.opSummarize, (h.plain hagg).1]
  have haggs' : (st.opSummarize (agg :: aggs) keys).aggregates = agg :: aggs := by
    simp [QueryState.opSummarize, hagg]
  have hne : (st.opSummarize (agg :: aggs) keys).aggregates ≠ [] := by
    rw [haggs']
    exact cons_ne_nil agg aggs
  obtain ⟨res, l, hres, hl, hperm⟩ := step_grouping (s := s) h hagg hdist hlimit hsrc hne rfl hlimit
    (hgroup.symm ▸ hkeys) (haggs'.symm ▸ haggs) hreach
  rw [hgroup, haggs'] at hperm
  refine ⟨res, hres, fun k hk c hc => (hkeys k hk c hc).1, fun a ha c hc => (haggs a ha c hc).1, l, res', hl, hperm, ?_⟩
  have hcols : (st.opSummarize (agg :: aggs) keys).columns base =
      keys.map Prod.fst ++ (agg :: aggs).map Prod.fst := by
    rw [QueryState.columns, selectClause_grouped hne, hgroup, haggs']
    rfl
  rw [QueryState.rel, hcols]
  rfl

theorem step_count (h : Inv table base st) (hsrc : src.cols = st.source base) (hfits : Fits base st s .count)
    (hreach : st.opCount.Reach base .any src res') : ∃ res, st.Reach base s src res ∧
      Step (st.rel base s res) (st.opCount.rel base .any res') .count := by
  obtain ⟨hagg, hdist, hlimit⟩ := hfits
  have hgroup : (st.opCount).groupBy = [] := (h.plain hagg).1
  have haggs : (st.opCount).aggregates = [("Count", countAll)] := by
    simp [QueryState.opCount, hagg]
  have hne : (st.opCount).aggregates ≠ [] := by simp [haggs]
  obtain ⟨res, l, hres, hl, hperm⟩ := step_grouping (s := s) h hagg hdist hlimit hsrc hne rfl hlimit
    (by simp [hgroup]) (by simp [haggs, countAll, QueryState.reads]) hreach
  refine ⟨res, hres, ?_⟩
  have hone : res' = [[("Count", Scalar.ofNat res.length)]] := by
    rw [hgroup, haggs] at hperm
    have hsingle : groupRows [] [("Count", countAll)] l =
        [[("Count", Scalar.ofNat res.length)]] := by simp [groupRows, countAll, hl.length_eq]
    rw [hsingle] at hperm
    exact perm_singleton.mp hperm
  have hcols : (st.opCount).columns base = ["Count"] := by
    rw [QueryState.columns, selectClause_grouped hne, hgroup, haggs]
    rfl
  show st.opCount.rel base .any res' = ⟨_, _, _⟩
  rw [QueryState.rel, hcols, hone]
  rfl

theorem step_distinct (h : Inv table base st) (hsrc : src.cols = st.source base) {cols : List Col}
    (hfits : Fits base st s (.distinct cols)) (hreach : (st.opDistinct cols).Reach base .any src res') :
    ∃ res, st.Reach base s src res ∧
      Step (st.rel base s res) ((st.opDistinct cols).rel base .any res') (.distinct cols) := by
  have h' : Inv table base (st.opDistinct cols) := inv_fits h hfits
  obtain ⟨hagg, hs, hsub, -⟩ := hfits
  have hcols : (st.opDistinct cols).columns base = if cols = [] then st.columns base else cols := by
    rw [columns_plain h' hagg]
    by_cases hnil : cols = []
    · rw [if_pos hnil, columns_plain h hagg]
      simp [QueryState.opDistinct, hnil]
      rfl
    · rw [if_neg hnil, if_neg (by simp [QueryState.opDistinct, hnil])]
      simp [QueryState.opDistinct, hnil]
  have hout : ∀ r ∈ st.kept src, (st.opDistinct cols).outRow r = distinctRow cols (st.outRow r) := by
    intro r hr
    by_cases hnil : cols = []
    · simp [QueryState.outRow, QueryState.opDistinct, distinctRow, hnil]
      rfl
    · have hsel : (st.opDistinct cols).select = cols := by simp [QueryState.opDistinct, hnil]
      rw [QueryState.outRow, hsel, if_neg hnil, distinctRow, if_neg hnil, pick]
      refine map_congr_left fun c hc => ?_
      rw [field_outRow h hagg (kept_wf hsrc hr) (hsub hc)]
      rfl
  obtain ⟨d, hd, rfl⟩ := (reach_distinct h' hagg rfl).mp hreach
  have hmem : ∀ x, x ∈ d ↔ x ∈ ((st.kept src).map st.outRow).map (distinctRow cols) := by
    intro x
    have hmap : ((st.opDistinct cols).kept src).map (st.opDistinct cols).outRow =
        (st.kept src).map (distinctRow cols ∘ st.outRow) := map_congr_left hout
    rw [hd.mem_iff, mem_dedup, hmap, map_map]
  have hnodup : d.Nodup := hd.nodup_iff.mpr (nodup_dedup _)
  have hrel : ∀ res, (∀ x, x ∈ limited st.limit d ↔ x ∈ res.map (distinctRow cols)) →
      Step (st.rel base s res) ((st.opDistinct cols).rel base .any (limited st.limit d)) (.distinct cols) := by
    intro res hres
    refine ⟨hsub, _, hnodup.sublist (limited_sublist _ _), hres, ?_⟩
    rw [QueryState.rel, hcols]
    rfl
  rcases Bool.eq_false_or_eq_true st.distinct with hdist | hdist
  case inr =>
      have hmap : ∀ x, x ∈ d ↔ x ∈ (st.kept src).map (distinctRow cols ∘ st.outRow) := by
        intro x
        rw [hmem, map_map]
      obtain ⟨l, hl, hsame⟩ := Arranged.exists_image (orders_keyLe base st) st.limit hs hnodup hmap
      refine ⟨l.map st.outRow, (reach_items h hagg hdist hsrc).mpr ⟨l, hl, rfl⟩, hrel _ fun x => ?_⟩
      rw [hsame, map_map]
  case inl =>
      have hmap : ∀ x, x ∈ d ↔ x ∈ ((st.kept src).map st.outRow).dedup.map (distinctRow cols) := by
        intro x
        rw [hmem]
        simp only [mem_map, mem_dedup]
      obtain ⟨l, hl, hsame⟩ := Arranged.exists_image (orders_outLe base st) st.limit hs hnodup hmap
      exact ⟨l, (reach_distinct h hagg hdist).mpr hl, hrel _ hsame⟩

/-- **One operator that fits**: what the pipeline may have made with it comes from what it may have
made without. -/
theorem step_fits (h : Inv table base st) (hsrc : src.cols = st.source base) {op : Op V}
    (hfits : Fits base st s op) (hreach : (applyOp st op).Reach base (op.standing s) src res') :
    ∃ res, st.Reach base s src res ∧ Step (st.rel base s res) ((applyOp st op).rel base (op.standing s) res') op := by
  cases op with
  | where_ e =>
    rw [applyOp, QueryState.opWhere, sealed_plain h hfits.1] at hreach ⊢
    exact step_where h hsrc hfits hreach
  | project c cols =>
    rw [applyOp, QueryState.opProject, sealed_plain h hfits.1] at hreach ⊢
    exact step_project h hsrc hfits hreach
  | projectAway cols =>
    rw [applyOp, QueryState.opProject, sealed_plain h hfits.1] at hreach ⊢
    exact step_projectAway h hsrc hfits hreach
  | extend defs => exact step_extend h hsrc hfits hreach
  | summarize agg aggs keys => exact step_summarize h hsrc hfits hreach
  | take n => exact step_take hfits hreach
  | sort key keys => exact step_sort hfits hreach
  | top n key => exact step_top hfits hreach
  | count => exact step_count h hsrc hfits hreach
  | distinct cols => exact step_distinct h hsrc hfits hreach

end Operators

section Queries

variable {table : String} {base : List Col} {st : QueryState V}

theorem applyOp_front (h : Inv table base st) {op : Op V}
    (hfits : Fits base st s op) : (applyOp st op).ctes = st.ctes ∧ (applyOp st op).table = st.table := by
  cases op with
  | where_ e =>
    rw [applyOp, QueryState.opWhere, sealed_plain h hfits.1]
    exact ⟨rfl, rfl⟩
  | project c cols | projectAway cols =>
    rw [applyOp, QueryState.opProject, sealed_plain h hfits.1]
    exact ⟨rfl, rfl⟩
  | _ => exact ⟨rfl, rfl⟩

variable [DecidableEq V] {env env' : String → Option (Table V)}

variable {T : Table V}

theorem source_cols (h : Inv table base st) {src : Table V} (hT : env table = some T)
    (hbase : T.cols = base) (hwith : With env st.ctes env') (hsrc : env' st.table = some src) :
    src.cols = st.source base := by
  have htable := h.table
  rcases eq_nil_or_concat' st.ctes with hnil | ⟨ctes, c, hctes⟩
  · rw [hnil] at hwith htable
    rw [QueryState.source, hnil]
    cases hwith
    have hname : st.table = table := htable
    rw [hname, hT] at hsrc
    cases hsrc
    exact hbase
  · rw [hctes, getLast?_concat] at htable
    obtain ⟨hname, hcols⟩ := htable
    rw [hctes] at hwith
    obtain ⟨mid, under, tbl, -, -, htbl, -, rfl⟩ := with_snoc hwith
    rw [hname, Function.update_self] at hsrc
    cases hsrc
    rw [htbl, hcols, QueryState.source, hctes, getLast?_concat]

def QueryState.Reached (base : List Col) (st : QueryState V) (s : Standing)
    (env : String → Option (Table V)) (res : List (Row V)) : Prop :=
  ∃ env' src, With env st.ctes env' ∧ env' st.table = some src ∧ st.Reach base s src res

theorem reached_fits (h : Inv table base st) (hT : env table = some T) (hbase : T.cols = base)
    {op : Op V} (hfits : Fits base st s op)
    (hreached : (applyOp st op).Reached base (op.standing s) env res') : ∃ res, st.Reached base s env res ∧
      Step (st.rel base s res) ((applyOp st op).rel base (op.standing s) res') op := by
  obtain ⟨hctes, htable⟩ := applyOp_front h hfits
  obtain ⟨env', src, hwith, hsrc, hreach⟩ := hreached
  have hwith' : With env st.ctes env' := hctes ▸ hwith
  have hsrc' : env' st.table = some src := htable ▸ hsrc
  obtain ⟨res, hres, hstep⟩ := step_fits h (source_cols h hT hbase hwith' hsrc') hfits hreach
  exact ⟨res, ⟨env', src, hwith', hsrc', hres⟩, hstep⟩

/-- **A sealed aggregation** is the aggregation, as long as its groups stand in any order and there is
no limit on them. -/
theorem reached_sealed (h : Inv table base st) (hT : env table = some T) (hbase : T.cols = base)
    (hagg : st.aggregated = true) (hlimit : st.limit = none) (hreached : st.sealed.Reached base .any env res) :
    st.Reached base .any env res ∧ st.sealed.rel base .any res = st.rel base .any res := by
  have hsealed : st.sealed = st.rebaseAggregation := by rw [QueryState.sealed, if_pos hagg]
  have hne : st.aggregates ≠ [] := by
    intro hnil
    rw [(h.plain hnil).2] at hagg
    cases hagg
  have hinv : Inv table base st.rebaseAggregation := inv_rebase
  have hblank : st.rebaseAggregation.Blank := ⟨rfl, rfl, rfl, rfl⟩
  rw [hsealed] at hreached ⊢
  obtain ⟨env', src, hwith, hsrc, hreach⟩ := hreached
  have hcols : src.cols = st.rebaseAggregation.source base := source_cols hinv hT hbase hwith hsrc
  obtain ⟨l, hl, rfl⟩ := (reach_items hinv rfl rfl hcols).mp hreach
  obtain ⟨mid, under, tbl, hmid, hunder, htbl, hsub, rfl⟩ := with_snoc hwith
  obtain rfl : tbl = src := by
    have hself : Function.update mid ("_agg" ++ toString st.aggSeq) (some tbl)
        st.rebaseAggregation.table = some tbl := Function.update_self ..
    exact Option.some.inj (hself.symm.trans hsrc)
  -- the sealed state reads the table as it is
  have hkept : st.rebaseAggregation.kept tbl = tbl.rows := filter_eq_self.mpr fun _ _ => rfl
  have hout : l.map st.rebaseAggregation.outRow = l := by
    rw [funext hblank.outRow]
    exact map_id l
  rw [hout]
  rw [hkept] at hl
  constructor
  · refine ⟨mid, under, hmid, hunder, (reach_grouped hne).mpr ?_⟩
    -- any order of the groups is a result of the grouping
    obtain ⟨out, ⟨rows, g, hrows, hg, rfl⟩, -, hres⟩ := hsub
    have hg' : tbl.rows = g := by
      rw [hres]
      exact snd_behind g
    refine ⟨rows, hrows, l, (hg' ▸ hl.perm).trans hg, ?_⟩
    rw [hlimit]
    rfl
  · have hcolumns : st.rebaseAggregation.columns base = st.columns base := by
      rw [hblank.columns hinv, QueryState.columns, selectClause_grouped hne, QueryState.source,
        QueryState.rebaseAggregation, getLast?_concat]
      rfl
    rw [QueryState.rel, QueryState.rel, hcolumns]

theorem reached_inOrder (h : Inv table base st) (hT : env table = some T) (hbase : T.cols = base)
    {op : Op V} (hop : InOrder base st s op)
    (hreached : (applyOp st op).Reached base (op.standing s) env res') : ∃ res, st.Reached base s env res ∧
      Step (st.rel base s res) ((applyOp st op).rel base (op.standing s) res') op := by
  unfold InOrder at hop
  split at hop
  · rename_i hseal
    obtain ⟨rfl, hlimit, hfits⟩ := hop
    rw [applyOp_sealed hseal.1 hseal.2] at hreached ⊢
    obtain ⟨res, hres, hstep⟩ := reached_fits (inv_sealed h) hT hbase hfits hreached
    obtain ⟨hres', hrel⟩ := reached_sealed h hT hbase hseal.2 hlimit hres
    exact ⟨res, hres', hrel ▸ hstep⟩
  · exact reached_fits h hT hbase hop hreached

theorem run_of_ordered (hT : env table = some T) {ops : List (Op V)}
    (hops : Ordered T.cols (.new table) .any ops)
    (hreached : (translate table ops).Reached T.cols (standing ops .any) env res) : ∃ l : List (Row V), l.Perm T.rows ∧
      Run ⟨T.cols, l, false⟩ ops ((translate table ops).rel T.cols (standing ops .any) res) := by
  induction ops using List.reverseRecOn generalizing res with
  | nil =>
    -- without operators the query is `SELECT *`
    obtain ⟨env', src, hwith, hsrc, hreach⟩ := hreached
    have hinv := inv_new (V := V) table T.cols
    cases hwith
    obtain rfl : T = src := Option.some.inj (hT.symm.trans hsrc)
    obtain ⟨l, hl, rfl⟩ := (reach_items hinv rfl rfl rfl).mp hreach
    have hkept : (QueryState.new table).kept T = T.rows := filter_eq_self.mpr fun _ _ => rfl
    rw [hkept] at hl
    refine ⟨l, hl.perm, ?_⟩
    have hblank : (QueryState.new (V := V) table).Blank := ⟨rfl, rfl, rfl, rfl⟩
    show (⟨T.cols, l, false⟩ : Rel V) = (QueryState.new table).rel T.cols .any _
    rw [QueryState.rel, hblank.columns hinv, funext hblank.outRow]
    exact congrArg (fun rows => (⟨T.cols, rows, false⟩ : Rel V)) (map_id l).symm
  | append_singleton ops op ih =>
    obtain ⟨hops', hop⟩ := ordered_snoc.mp hops
    have hstate : translate table (ops ++ [op]) = applyOp (translate table ops) op := by
      simp [translate, foldl_append]
    have hstanding : standing (ops ++ [op]) .any = op.standing (standing ops .any) := by
      simp [standing, foldl_append]
    have hinv : Inv table T.cols (translate table ops) := inv_foldl (inv_new table T.cols) hops'
    rw [hstate, hstanding] at hreached ⊢
    obtain ⟨mid, hmid, hstep⟩ := reached_inOrder hinv hT rfl hop hreached
    obtain ⟨l, hl, hrun⟩ := ih hops' hmid
    exact ⟨l, hl, run_snoc.mpr ⟨_, hrun, hstep⟩⟩

/-- **Pipelines in order keep their meaning**: every result of the query is a result of the
operators, one after another from left to right. -/
theorem results_of_ordered {T : Table V} (hT : env table = some T) {ops : List (Op V)}
    (hops : Ordered T.cols (.new table) .any ops) {res : List (Row V)}
    (hres : (kqlToSql table ops).Result env res) : Results T ops res := by
  obtain ⟨-, env', src, hwith, hsrc, hrows⟩ := hres
  have hinv : Inv table T.cols (translate table ops) := inv_foldl (inv_new table T.cols) hops
  have hcols : src.cols = (translate table ops).source T.cols := source_cols hinv hT rfl hwith hsrc
  obtain ⟨l, hl, hrun⟩ := run_of_ordered hT hops ⟨env', src, hwith, hsrc, reach_of_rows hcols hrows⟩
  exact ⟨l, hl, _, hrun, rfl⟩

end Queries

/-- Numbers as values: zero is the null, and what is not zero is true. -/
instance numbers : Scalar ℕ where
  truth := fun n => n != 0
  le := fun a b => a ≤ b
  ofNat := id
  le_total := fun a b => by simp [Nat.le_total]
  le_trans := fun a b c hab hbc => by simp at *; omega

def column (c : Col) : Expr ℕ := ⟨[c], fun ρ => ρ c, fun _ _ h => h c (by simp)⟩

def twoRows : Table ℕ := ⟨["x"], [[("x", 0)], [("x", 1)]], by simp⟩

def twoRowsOnly : String → Option (Table ℕ) := fun name => if name = "t" then some twoRows else none

def groupsInOrder : List (Op ℕ) :=
  [.summarize ("n", countAll) [] [("x", column "x")], .where_ (column "x"), .sort (column "n", true) [], .take 1]

theorem results_of_ordered_groups : (kqlToSql "t" groupsInOrder).Result twoRowsOnly
    [[("x", 1), ("n", 1)]] ∧ Results twoRows groupsInOrder [[("x", 1), ("n", 1)]] := by
  have hres : (kqlToSql "t" groupsInOrder).Result twoRowsOnly [[("x", 1), ("n", 1)]] := by
    refine ⟨rfl, _, ⟨["x", "n"], [[("x", 0), ("n", 1)], [("x", 1), ("n", 1)]], by simp⟩,
      .cons rfl rfl ?_ .nil, rfl, ?_⟩
    · refine ⟨[([], [("x", 0), ("n", 1)]), ([], [("x", 1), ("n", 1)])], ⟨twoRows.rows,
        [[("x", 0), ("n", 1)], [("x", 1), ("n", 1)]], .refl _, .refl _, rfl⟩, ?_, rfl⟩
      exact pairwise_of_forall fun _ _ => rfl
    · exact ⟨[([("x", 1), ("n", 1)], [("x", 1), ("n", 1)])], ⟨_, .refl _, rfl⟩,
        pairwise_singleton .., rfl⟩
  have hops : Ordered twoRows.cols (.new "t") .any groupsInOrder := by decide
  exact ⟨hres, results_of_ordered rfl hops hres⟩

theorem length_le_of_takes {T : Table ℕ} {m n : ℕ} {res : List (Row ℕ)}
    (h : Results T [.take m, .take n] res) : res.length ≤ m := by
  obtain ⟨l, -, R, ⟨R₁, ⟨l₁, -, rfl⟩, R₂, ⟨l₂, hl₂, rfl⟩, hR⟩, rfl⟩ := h
  cases hR
  have hperm : l₂.Perm (l₁.take m) := by simpa using hl₂
  calc (l₂.take n).length ≤ l₂.length := (take_sublist n l₂).length_le
    _ = (l₁.take m).length := hperm.length_eq
    _ ≤ m := length_take_le m l₁

/-- **Pipelines that the flat query does not keep**: a second `take` enlarges the result, an
aggregation counts rows that were not taken, and a filter finds rows behind those that were. -/
theorem take_folded_out_of_order : (∃ res, (kqlToSql "t" [.take 1, .take 2]).Result twoRowsOnly res ∧
      ¬ Results twoRows [.take 1, .take 2] res) ∧ (∃ res, (kqlToSql "t" [.take 1, .count]).Result twoRowsOnly res ∧
      ¬ Results twoRows [.take 1, .count] res) ∧
    ∃ res, (kqlToSql "t" [.sort (column "x", false) [], .take 1, .where_ (column "x")]).Result twoRowsOnly res ∧
      ¬ Results twoRows [.sort (column "x", false) [], .take 1, .where_ (column "x")] res := by
  refine ⟨⟨twoRows.rows, ⟨rfl, _, twoRows, .nil, rfl, twoRows.rows.map fun r => (r, r),
      ⟨_, .refl _, rfl⟩, pairwise_of_forall fun _ _ => rfl, rfl⟩, fun h => ?_⟩,
    ⟨[[("Count", 2)]], ⟨rfl, _, twoRows, .nil, rfl, [([], [("Count", 2)])],
      ⟨_, _, .refl _, .refl _, rfl⟩, pairwise_singleton .., rfl⟩, ?_⟩,
    ⟨[[("x", 1)]], ⟨rfl, _, twoRows, .nil, rfl, [([("x", 1)], [("x", 1)])],
      ⟨_, .refl _, rfl⟩, pairwise_singleton .., rfl⟩, ?_⟩⟩
  · have hlen := length_le_of_takes h
    simp [twoRows] at hlen
  · -- one row is taken, so that the count is one
    rintro ⟨l, hl, R, ⟨R₁, ⟨l₁, hl₁, rfl⟩, R₂, rfl, hR⟩, hres⟩
    cases hR
    have hlen : l₁.length = 2 := by
      have hperm : l₁.Perm l := by simpa using hl₁
      exact (hperm.trans hl).length_eq
    simp [hlen, Scalar.ofNat] at hres
  · -- the first row of the order is taken, and it does not pass the filter
    rintro ⟨l, hl, R, ⟨R₁, ⟨-, l₁, hl₁, hsorted, rfl⟩, R₂, ⟨l₂, hl₂, rfl⟩, R₃, ⟨-, rfl⟩, hR⟩, hres⟩
    cases hR
    obtain rfl : l₂ = l₁ := by simpa using hl₂
    have hperm : l₂.Perm [[("x", 0)], [("x", 1)]] := hl₁.trans hl
    have hcases : l₂ = [[("x", 0)], [("x", 1)]] ∨ l₂ = [[("x", 1)], [("x", 0)]] := by
      have hmem := mem_permutations.mpr hperm
      simpa [List.permutations] using hmem
    rcases hcases with rfl | rfl
    · simp [column, field, Scalar.truth] at hres
    · simp [precedes, column, field, Scalar.le] at hsorted

end Kql
