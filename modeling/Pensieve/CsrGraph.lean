/-
**The CSR topology: interning and counting sort.**

`CsrGraph::build` of `pensieve-graph-topo` turns a list of node ids and a stream of
`(src, dst, etype)` edges into flat arrays: node ids and edge types are interned into dense `u32`
ordinals, dangling edges are dropped, and the kept triples are laid out twice by a counting sort,
once by source (`out_*`) and once by destination (`in_*`).
-/

import Mathlib.Data.List.GetD
import Mathlib.Tactic

namespace GraphTopo

open List

/-- The cast `as u32`. -/
def asU32 (n : ℕ) : ℕ := n % 2 ^ 32

theorem asU32_of_lt {n : ℕ} (h : n < 2 ^ 32) : asU32 n = n := Nat.mod_eq_of_lt h

/-! ### Interning -/

/-- A dictionary: the names in order, and the ordinal recorded for each. -/
structure Dict where
  names : List String
  index : String → Option ℕ

def Dict.empty : Dict := ⟨[], fun _ => none⟩

def Dict.intern (d : Dict) (x : String) : Dict :=
  match d.index x with
  | some _ => d
  | none => ⟨d.names ++ [x], Function.update d.index x (some (asU32 d.names.length))⟩

def Dict.internAll (d : Dict) (xs : List String) : Dict := xs.foldl Dict.intern d

/-- What interning maintains: no name twice, and each recorded at its position cast to `u32`. -/
structure Dict.WF (d : Dict) : Prop where
  nodup : d.names.Nodup
  index : ∀ x, d.index x = if x ∈ d.names then some (asU32 (d.names.idxOf x)) else none

theorem Dict.wf_empty : Dict.empty.WF := ⟨by simp [Dict.empty], fun x => by simp [Dict.empty]⟩

variable {d : Dict} {x : String}

theorem Dict.WF.index_eq_none (h : d.WF) : d.index x = none ↔ x ∉ d.names := by
  rw [h.index x]
  split <;> simp_all

theorem Dict.WF.index_eq_some (h : d.WF) {i : ℕ} :
    d.index x = some i ↔ x ∈ d.names ∧ i = asU32 (d.names.idxOf x) := by
  rw [h.index x]
  split <;> simp_all [eq_comm]

theorem Dict.WF.intern (h : d.WF) (x : String) : (d.intern x).WF := by
  unfold Dict.intern
  cases hx : d.index x with
  | some i => exact h
  | none =>
    have hmem : x ∉ d.names := h.index_eq_none.1 hx
    refine ⟨?_, fun y => ?_⟩
    · simp only [nodup_append, h.nodup, nodup_singleton, true_and]
      intro a ha b hb hab
      rw [mem_singleton] at hb
      exact hmem (hb ▸ hab ▸ ha)
    · by_cases hy : y = x
      · subst hy
        simp [idxOf_append, hmem]
      · simp only [Function.update_of_ne hy, mem_append, mem_singleton, hy, or_false]
        rw [h.index y]
        split
        · rw [idxOf_append_of_mem ‹_›]
        · rfl

theorem Dict.mem_names_intern (h : d.WF) (x y : String) : y ∈ (d.intern x).names ↔ y ∈ d.names ∨ y = x := by
  unfold Dict.intern
  cases hx : d.index x with
  | some i =>
    have := (h.index_eq_some.1 hx).1
    constructor
    · exact Or.inl
    · rintro (hy | rfl) <;> assumption
  | none => simp

theorem Dict.WF.internAll (h : d.WF) (xs : List String) : (d.internAll xs).WF := by
  induction xs generalizing d with
  | nil => exact h
  | cons x xs ih => exact ih (h.intern x)

theorem Dict.mem_names_internAll (h : d.WF) (xs : List String) (y : String) :
    y ∈ (d.internAll xs).names ↔ y ∈ d.names ∨ y ∈ xs := by
  induction xs generalizing d with
  | nil => simp [Dict.internAll]
  | cons x xs ih =>
    have hstep : d.internAll (x :: xs) = (d.intern x).internAll xs := rfl
    rw [hstep, ih (h.intern x), Dict.mem_names_intern h]
    simp only [mem_cons]
    tauto

theorem Dict.names_internAll_of_nodup (h : d.WF) {xs : List String} (hxs : xs.Nodup)
    (hnew : ∀ x ∈ xs, x ∉ d.names) : (d.internAll xs).names = d.names ++ xs := by
  induction xs generalizing d with
  | nil => simp [Dict.internAll]
  | cons x xs ih =>
    rw [nodup_cons] at hxs
    have hx : d.index x = none := h.index_eq_none.2 (hnew x (by simp))
    have hnames : (d.intern x).names = d.names ++ [x] := by simp [Dict.intern, hx]
    have hstep : d.internAll (x :: xs) = (d.intern x).internAll xs := rfl
    rw [hstep, ih (h.intern x) hxs.2, hnames, append_assoc]
    · rfl
    · intro y hy hmem
      rw [hnames, mem_append, mem_singleton] at hmem
      rcases hmem with hmem | rfl
      · exact hnew y (by simp [hy]) hmem
      · exact hxs.1 hy

/-! ### The counting sort -/

abbrev Triple := ℕ × ℕ × ℕ

def countRows (n : ℕ) (triples : List Triple) : List ℕ :=
  triples.foldl (fun off t => off.modify (t.1 + 1) fun c => asU32 (c + 1)) (List.replicate (n + 1) 0)

/-- Prefix sums in place: `for i in 0..n { offsets[i + 1] += offsets[i] }`. -/
def prefixSums (n : ℕ) (offsets : List ℕ) : List ℕ :=
  (List.range n).foldl (fun off i => off.set (i + 1) (asU32 (off.getD (i + 1) 0 + off.getD i 0))) offsets

/-- The arrays being filled: targets, edge types, and the next free slot of every row. -/
structure Fill where
  targets : List ℕ
  etype : List ℕ
  cursor : List ℕ

def Fill.place (f : Fill) (t : Triple) : Fill :=
  let slot := f.cursor.getD t.1 0
  { targets := f.targets.set slot t.2.1
    etype := f.etype.set slot t.2.2
    cursor := f.cursor.modify t.1 fun c => asU32 (c + 1) }

/-- **`build_csr`**: `(offsets, targets, etype)` for `n` nodes. -/
def buildCsr (n : ℕ) (triples : List Triple) : List ℕ × List ℕ × List ℕ :=
  let offsets := prefixSums n (countRows n triples)
  let total := offsets.getLastD 0
  let f := triples.foldl Fill.place ⟨List.replicate total 0, List.replicate total 0, offsets⟩
  (offsets, f.targets, f.etype)

/-! ### What the counting sort computes -/

/-- The triples in rows before `v`. -/
def rank (triples : List Triple) (v : ℕ) : ℕ := triples.countP fun t => t.1 < v

/-- The triples in row `v`. -/
def rowCount (triples : List Triple) (v : ℕ) : ℕ := triples.countP fun t => t.1 = v

theorem rank_succ (triples : List Triple) (v : ℕ) : rank triples (v + 1) = rank triples v + rowCount triples v := by
  induction triples with
  | nil => rfl
  | cons t triples ih =>
    simp only [rank, rowCount, countP_cons] at ih ⊢
    rw [ih]
    rcases lt_trichotomy t.1 v with h | h | h
    · simp [h, Nat.lt_succ_of_lt h, h.ne]
      omega
    · simp [h]
      omega
    · have h₁ : ¬ t.1 < v + 1 := by omega
      have h₂ : ¬ t.1 < v := by omega
      have h₃ : t.1 ≠ v := by omega
      simp [h₁, h₂, h₃]

theorem rank_zero (triples : List Triple) : rank triples 0 = 0 := by
  simp [rank]

theorem rank_mono (triples : List Triple) {v w : ℕ} (h : v ≤ w) : rank triples v ≤ rank triples w :=
  countP_mono_left fun t _ ht => by
    simp only [decide_eq_true_eq] at ht ⊢
    omega

theorem rank_le_length (triples : List Triple) (v : ℕ) : rank triples v ≤ triples.length := countP_le_length

theorem rank_eq_length {n : ℕ} {triples : List Triple} (h : ∀ t ∈ triples, t.1 < n) :
    rank triples n = triples.length :=
  countP_eq_length.2 fun t ht => by simpa using h t ht

theorem getD_modify (l : List ℕ) (i j : ℕ) (f : ℕ → ℕ) (hi : i < l.length) :
    (l.modify i f).getD j 0 = if j = i then f (l.getD j 0) else l.getD j 0 := by
  by_cases hj : j < l.length
  · rw [getD_eq_getElem _ _ (by simpa using hj), getD_eq_getElem _ _ hj, getElem_modify]
    simp only [eq_comm]
  · have hne : j ≠ i := by omega
    rw [getD_eq_default _ _ (by simpa using hj), getD_eq_default _ _ (by omega), if_neg hne]

theorem getD_set (l : List ℕ) (i j a : ℕ) (hi : i < l.length) :
    (l.set i a).getD j 0 = if j = i then a else l.getD j 0 := by
  by_cases hj : j < l.length
  · rw [getD_eq_getElem _ _ (by simpa using hj), getD_eq_getElem _ _ hj, getElem_set]
    simp only [eq_comm]
  · have hne : j ≠ i := by omega
    rw [getD_eq_default _ _ (by simpa using hj), getD_eq_default _ _ (by omega), if_neg hne]

theorem countRows_aux {n : ℕ} (triples : List Triple) (hn : ∀ t ∈ triples, t.1 < n)
    (off : List ℕ) (hlen : off.length = n + 1) (hsmall : ∀ j, off.getD (j + 1) 0 + rowCount triples j < 2 ^ 32) :
    (triples.foldl (fun off t => off.modify (t.1 + 1) fun c => asU32 (c + 1)) off).length = n + 1 ∧
      (triples.foldl (fun off t => off.modify (t.1 + 1) fun c => asU32 (c + 1)) off).getD 0 0 = off.getD 0 0 ∧
      ∀ j, (triples.foldl (fun off t => off.modify (t.1 + 1) fun c => asU32 (c + 1)) off).getD
        (j + 1) 0 = off.getD (j + 1) 0 + rowCount triples j := by
  induction triples generalizing off with
  | nil => exact ⟨hlen, rfl, fun j => by simp [rowCount]⟩
  | cons t triples ih =>
    have ht : t.1 < n := hn t (by simp)
    have hget : ∀ j, (off.modify (t.1 + 1) fun c => asU32 (c + 1)).getD (j + 1) 0 =
        off.getD (j + 1) 0 + if t.1 = j then 1 else 0 := by
      intro j
      rw [getD_modify _ _ _ _ (by omega)]
      by_cases hj : t.1 = j
      · have := hsmall j
        simp only [rowCount, countP_cons, hj, decide_true, if_true] at this
        simp only [hj, if_true]
        exact asU32_of_lt (by omega)
      · have : j + 1 ≠ t.1 + 1 := by omega
        rw [if_neg this, if_neg hj]
        rfl
    have hrow : ∀ j, rowCount (t :: triples) j = rowCount triples j + if t.1 = j then 1 else 0 := by
      intro j
      simp [rowCount, countP_cons]
    obtain ⟨h₁, h₂, h₃⟩ := ih (fun u hu => hn u (by simp [hu]))
      (off.modify (t.1 + 1) fun c => asU32 (c + 1)) (by simpa using hlen)
      (fun j => by have := hsmall j; rw [hrow] at this; rw [hget]; omega)
    refine ⟨h₁, ?_, fun j => ?_⟩
    · rw [foldl_cons, h₂, getD_modify _ _ _ _ (by omega)]
      simp
    · rw [foldl_cons, h₃, hget, hrow]
      omega

section Layout

variable {n : ℕ} {triples : List Triple}

theorem rowCount_le_length (triples : List Triple) (v : ℕ) : rowCount triples v ≤ triples.length := countP_le_length

theorem getD_replicate_zero (m j : ℕ) : (List.replicate m 0).getD j 0 = 0 := by
  rw [getD_eq_getElem?_getD, getElem?_replicate]
  split <;> rfl

theorem countRows_spec (hn : ∀ t ∈ triples, t.1 < n) (hlt : triples.length < 2 ^ 32) :
    (countRows n triples).length = n + 1 ∧ (countRows n triples).getD 0 0 = 0 ∧
      ∀ j, (countRows n triples).getD (j + 1) 0 = rowCount triples j := by
  obtain ⟨h₁, h₂, h₃⟩ := countRows_aux triples hn (List.replicate (n + 1) 0) (by simp)
    (fun j => by
      have := rowCount_le_length triples j
      rw [getD_replicate_zero]
      omega)
  refine ⟨h₁, ?_, fun j => ?_⟩
  · rw [countRows, h₂, getD_replicate_zero]
  · rw [countRows, h₃, getD_replicate_zero, Nat.zero_add]

theorem prefixSums_aux (hlt : triples.length < 2 ^ 32) (off : List ℕ) (hlen : off.length = n + 1)
    (h0 : off.getD 0 0 = 0) (hoff : ∀ j, off.getD (j + 1) 0 = rowCount triples j) (m : ℕ) (hm : m ≤ n) :
    (prefixSums m off).length = n + 1 ∧ (∀ j ≤ m, (prefixSums m off).getD j 0 = rank triples j) ∧
      ∀ j, m ≤ j → (prefixSums m off).getD (j + 1) 0 = rowCount triples j := by
  induction m with
  | zero =>
    refine ⟨hlen, fun j hj => ?_, fun j _ => hoff j⟩
    obtain rfl : j = 0 := by omega
    rw [rank_zero]
    exact h0
  | succ m ih =>
    obtain ⟨h₁, h₂, h₃⟩ := ih (by omega)
    have hstep : prefixSums (m + 1) off = (prefixSums m off).set (m + 1)
        (asU32 ((prefixSums m off).getD (m + 1) 0 + (prefixSums m off).getD m 0)) := by
      simp [prefixSums, range_succ]
    have hval : asU32 ((prefixSums m off).getD (m + 1) 0 + (prefixSums m off).getD m 0) = rank triples (m + 1) := by
      have hle := rank_le_length triples (m + 1)
      rw [h₂ m le_rfl, h₃ m le_rfl, Nat.add_comm, ← rank_succ]
      exact asU32_of_lt (by omega)
    rw [hstep, hval]
    refine ⟨by simpa using h₁, fun j hj => ?_, fun j hj => ?_⟩
    · rw [getD_set _ _ _ _ (by omega)]
      split
      · rename_i h
        rw [h]
      · exact h₂ j (by omega)
    · rw [getD_set _ _ _ _ (by omega), if_neg (by omega)]
      exact h₃ j (by omega)

/-- **The offsets**: row `v` starts after all the triples of earlier rows. -/
theorem buildCsr_offsets (hn : ∀ t ∈ triples, t.1 < n) (hlt : triples.length < 2 ^ 32) :
    (buildCsr n triples).1.length = n + 1 ∧ ∀ v ≤ n, (buildCsr n triples).1.getD v 0 = rank triples v := by
  obtain ⟨h₁, h₂, h₃⟩ := countRows_spec hn hlt
  obtain ⟨h₄, h₅, -⟩ := prefixSums_aux hlt (countRows n triples) h₁ h₂ h₃ n le_rfl
  exact ⟨h₄, h₅⟩

theorem getLastD_offsets (hn : ∀ t ∈ triples, t.1 < n) (hlt : triples.length < 2 ^ 32) :
    (prefixSums n (countRows n triples)).getLastD 0 = triples.length := by
  obtain ⟨hlen, hoff⟩ := buildCsr_offsets hn hlt
  have h := hoff n le_rfl
  rw [rank_eq_length hn] at h
  have hlen' : (prefixSums n (countRows n triples)).length = n + 1 := hlen
  rw [← h, getLastD_eq_getLast?, getLast?_eq_getElem?, hlen', getD_eq_getElem?_getD]
  rfl

/-- What the fill has placed once the triples `done` have been processed. -/
structure FillInv (n : ℕ) (triples done : List Triple) (f : Fill) : Prop where
  targets_length : f.targets.length = triples.length
  etype_length : f.etype.length = triples.length
  cursor_length : f.cursor.length = n + 1
  cursor : ∀ v < n, f.cursor.getD v 0 = rank triples v + rowCount done v
  /-- The `j`-th triple of row `v` sits `j` slots after the start of the row. -/
  placed : ∀ v < n, ∀ j t, (done.filter fun u => u.1 = v)[j]? = some t →
    f.targets.getD (rank triples v + j) 0 = t.2.1 ∧ f.etype.getD (rank triples v + j) 0 = t.2.2

theorem filter_length_eq_rowCount (l : List Triple) (v : ℕ) : (l.filter fun u => u.1 = v).length = rowCount l v := by
  rw [rowCount, countP_eq_length_filter]

theorem FillInv.place {done rest : List Triple} {t : Triple} {f : Fill}
    (h : FillInv n triples done f) (hsplit : triples = done ++ t :: rest) (ht : t.1 < n)
    (hlt : triples.length < 2 ^ 32) : FillInv n triples (done ++ [t]) (f.place t) := by
  have hrow : ∀ v, rowCount triples v = rowCount done v + ((if t.1 = v then 1 else 0) + rowCount rest v) := by
    intro v
    rw [hsplit]
    simp only [rowCount, countP_append, countP_cons, decide_eq_true_eq]
    omega
  have hslot : f.cursor.getD t.1 0 = rank triples t.1 + rowCount done t.1 := h.cursor t.1 ht
  have hslotlt : rank triples t.1 + rowCount done t.1 < triples.length := by
    have h₁ := rank_succ triples t.1
    have h₂ := rank_le_length triples (t.1 + 1)
    have h₃ := hrow t.1
    simp only [if_true] at h₃
    omega
  refine ⟨by simp [Fill.place, h.targets_length], by simp [Fill.place, h.etype_length],
    by simp [Fill.place, h.cursor_length], fun v hv => ?_, fun v hv j u hu => ?_⟩
  · have hc := h.cursor v hv
    simp only [Fill.place]
    rw [getD_modify _ _ _ _ (by rw [h.cursor_length]; omega)]
    by_cases hvt : v = t.1
    · subst hvt
      rw [if_pos rfl, hc, asU32_of_lt (by omega)]
      simp [rowCount, countP_append]
      omega
    · rw [if_neg hvt, hc]
      simp [rowCount, countP_append, Ne.symm hvt]
  · simp only [Fill.place, hslot]
    rw [getD_set _ _ _ _ (by rw [h.targets_length]; exact hslotlt),
      getD_set _ _ _ _ (by rw [h.etype_length]; exact hslotlt)]
    rw [filter_append] at hu
    by_cases hj : j < (done.filter fun u => u.1 = v).length
    · -- an earlier triple: its slot is below that of `t`, or in another row
      rw [getElem?_append_left hj] at hu
      have hjr : j < rowCount done v := by rwa [filter_length_eq_rowCount] at hj
      have hne : rank triples v + j ≠ rank triples t.1 + rowCount done t.1 := by
        rcases lt_trichotomy v t.1 with hvt | hvt | hvt
        · have h₁ := rank_succ triples v
          have h₂ := rank_mono triples (show v + 1 ≤ t.1 by omega)
          have h₃ := hrow v
          omega
        · subst hvt
          omega
        · have h₁ := rank_succ triples t.1
          have h₂ := rank_mono triples (show t.1 + 1 ≤ v by omega)
          have h₃ := hrow t.1
          simp only [if_true] at h₃
          omega
      rw [if_neg hne, if_neg hne]
      exact h.placed v hv j u hu
    · rw [getElem?_append_right (by omega)] at hu
      by_cases htv : t.1 = v
      · subst htv
        simp only [filter_cons, filter_nil, decide_true, if_true] at hu
        have hj0 : j - (done.filter fun u => u.1 = t.1).length = 0 := by
          by_contra hne
          rw [getElem?_eq_none (by simp only [length_singleton]; omega)] at hu
          simp at hu
        rw [hj0] at hu
        have hju : j = rowCount done t.1 := by
          rw [← filter_length_eq_rowCount]
          omega
        simp only [getElem?_cons_zero, Option.some.injEq] at hu
        subst hu
        rw [hju, if_pos rfl, if_pos rfl]
        exact ⟨rfl, rfl⟩
      · simp [htv] at hu

theorem fillInv_foldl (hn : ∀ t ∈ triples, t.1 < n) (hlt : triples.length < 2 ^ 32)
    (rest done : List Triple) (hsplit : triples = done ++ rest) (f : Fill)
    (h : FillInv n triples done f) : FillInv n triples triples (rest.foldl Fill.place f) := by
  induction rest generalizing done f with
  | nil =>
    have : triples = done := by simpa using hsplit
    rw [← this] at h
    exact h
  | cons t rest ih =>
    have ht : t.1 < n := hn t (by simp [hsplit])
    exact ih (done ++ [t]) (by simp [hsplit]) (f.place t) (h.place hsplit ht hlt)

/-- **The rows**: slot `j` of row `v` holds the `j`-th triple that starts at `v`. -/
theorem buildCsr_row (hn : ∀ t ∈ triples, t.1 < n) (hlt : triples.length < 2 ^ 32) {v : ℕ}
    (hv : v < n) :
    (List.range' (rank triples v) (rowCount triples v)).map (fun i =>
        ((buildCsr n triples).2.1.getD i 0, (buildCsr n triples).2.2.getD i 0)) =
      (triples.filter fun t => t.1 = v).map Prod.snd := by
  obtain ⟨hlen, hoff⟩ := buildCsr_offsets hn hlt
  have htotal := getLastD_offsets hn hlt
  have hinit : FillInv n triples [] ⟨List.replicate triples.length 0,
      List.replicate triples.length 0, (buildCsr n triples).1⟩ :=
    ⟨by simp, by simp, hlen, fun u hu => by simpa [rowCount] using hoff u (by omega), fun u _ j t ht => by simp at ht⟩
  have hinv := fillInv_foldl hn hlt triples [] rfl _ hinit
  have harr : (buildCsr n triples).2 = ((triples.foldl Fill.place ⟨List.replicate triples.length 0,
        List.replicate triples.length 0, (buildCsr n triples).1⟩).targets,
       (triples.foldl Fill.place ⟨List.replicate triples.length 0,
        List.replicate triples.length 0, (buildCsr n triples).1⟩).etype) := by
    simp only [buildCsr, htotal]
  refine ext_getElem? fun j => ?_
  rw [getElem?_map, getElem?_map]
  by_cases hj : j < rowCount triples v
  · have hj' : j < (triples.filter fun u => u.1 = v).length := by
      rwa [filter_length_eq_rowCount]
    obtain ⟨h₁, h₂⟩ := hinv.placed v hv j _ (getElem?_eq_getElem hj')
    rw [getElem?_range' hj, getElem?_eq_getElem hj']
    simp only [Option.map_some, harr, Nat.one_mul, h₁, h₂]
  · rw [getElem?_eq_none (by simp only [length_range']; omega),
      getElem?_eq_none (by rw [filter_length_eq_rowCount]; omega)]
    rfl

end Layout

/-! ### The graph -/

/-- An edge of the input stream: `(src, dst, etype)`. -/
abbrev EdgeRow := String × String × String

structure CsrGraph where
  ids : List String
  idToIdx : String → Option ℕ
  etypes : List String
  outOffsets : List ℕ
  outTargets : List ℕ
  outEtype : List ℕ
  inOffsets : List ℕ
  inSources : List ℕ
  inEtype : List ℕ

structure Kept where
  etypes : Dict
  kept : List Triple

def Kept.add (idx : String → Option ℕ) (k : Kept) (e : EdgeRow) : Kept :=
  match idx e.1, idx e.2.1 with
  | some si, some di =>
    let etypes := k.etypes.intern e.2.2
    ⟨etypes, k.kept ++ [(si, di, (etypes.index e.2.2).getD 0)]⟩
  | _, _ => k

def nodeDict (nodes : List String) : Dict := Dict.empty.internAll nodes

/-- The edges `build` keeps. -/
def keepEdges (nodes : List String) (edges : List EdgeRow) : Kept :=
  edges.foldl (Kept.add (nodeDict nodes).index) ⟨Dict.empty, []⟩

def CsrGraph.build (nodes : List String) (edges : List EdgeRow) : CsrGraph :=
  let d := nodeDict nodes
  let k := keepEdges nodes edges
  let n := d.names.length
  let out := buildCsr n k.kept
  let inn := buildCsr n (k.kept.map fun t => (t.2.1, t.1, t.2.2))
  { ids := d.names
    idToIdx := d.index
    etypes := k.etypes.names
    outOffsets := out.1
    outTargets := out.2.1
    outEtype := out.2.2
    inOffsets := inn.1
    inSources := inn.2.1
    inEtype := inn.2.2 }

/-! ### What is kept -/

theorem Dict.index_intern_self (h : d.WF) (x : String) : ∃ i, (d.intern x).index x = some i := by
  have hmem : x ∈ (d.intern x).names := (Dict.mem_names_intern h x x).2 (Or.inr rfl)
  exact ⟨_, (h.intern x).index_eq_some.2 ⟨hmem, rfl⟩⟩

theorem Dict.index_intern_of_some {y : String} {i : ℕ} (hy : d.index y = some i) : (d.intern x).index y = some i := by
  unfold Dict.intern
  cases hx : d.index x with
  | some j => exact hy
  | none =>
    have hne : y ≠ x := by
      rintro rfl
      simp [hx] at hy
    simpa [Function.update_of_ne hne] using hy

theorem Dict.names_length_intern_le (d : Dict) (x : String) : (d.intern x).names.length ≤ d.names.length + 1 := by
  unfold Dict.intern
  split <;> simp

structure Kept.Inv (idx : String → Option ℕ) (es : List EdgeRow) (k : Kept) : Prop where
  etypes : k.etypes.WF
  mem : ∀ t, t ∈ k.kept ↔ ∃ e ∈ es, idx e.1 = some t.1 ∧ idx e.2.1 = some t.2.1 ∧ k.etypes.index e.2.2 = some t.2.2
  interned : ∀ e ∈ es, ∀ i j, idx e.1 = some i → idx e.2.1 = some j → ∃ t, k.etypes.index e.2.2 = some t
  length : k.kept.length = es.countP fun e => (idx e.1).isSome && (idx e.2.1).isSome
  types_le : k.etypes.names.length ≤ k.kept.length

theorem Kept.inv_add {idx : String → Option ℕ} {es : List EdgeRow} {k : Kept}
    (h : Kept.Inv idx es k) (e : EdgeRow) : Kept.Inv idx (es ++ [e]) (k.add idx e) := by
  unfold Kept.add
  cases hs : idx e.1 with
  | none =>
    refine ⟨h.etypes, fun t => ?_, ?_, ?_, h.types_le⟩
    · rw [h.mem]
      simp only [mem_append, mem_singleton, or_and_right, exists_or, exists_eq_left, hs]
      simp
    · intro e' he' i j hi hj
      rcases mem_append.1 he' with he' | he'
      · exact h.interned e' he' i j hi hj
      · rw [mem_singleton.1 he', hs] at hi
        simp at hi
    · simp [countP_append, h.length, hs]
  | some si =>
    cases hd : idx e.2.1 with
    | none =>
      refine ⟨h.etypes, fun t => ?_, ?_, ?_, h.types_le⟩
      · rw [h.mem]
        simp only [mem_append, mem_singleton, or_and_right, exists_or, exists_eq_left, hd]
        simp
      · intro e' he' i j hi hj
        rcases mem_append.1 he' with he' | he'
        · exact h.interned e' he' i j hi hj
        · rw [mem_singleton.1 he', hd] at hj
          simp at hj
      · simp [countP_append, h.length, hd]
    | some di =>
      obtain ⟨tid, htid⟩ := Dict.index_intern_self h.etypes e.2.2
      refine ⟨h.etypes.intern _, fun t => ?_, ?_, ?_, ?_⟩
      · simp only [mem_append, mem_singleton, h.mem, htid, Option.getD_some]
        constructor
        · rintro (⟨e', he', h₁, h₂, h₃⟩ | rfl)
          · exact ⟨e', Or.inl he', h₁, h₂, Dict.index_intern_of_some h₃⟩
          · exact ⟨e, Or.inr rfl, hs, hd, htid⟩
        · rintro ⟨e', he' | rfl, h₁, h₂, h₃⟩
          · obtain ⟨j, hj⟩ := h.interned e' he' _ _ h₁ h₂
            refine Or.inl ⟨e', he', h₁, h₂, ?_⟩
            rw [Dict.index_intern_of_some hj] at h₃
            rw [hj, h₃]
          · rw [hs] at h₁
            rw [hd] at h₂
            rw [htid] at h₃
            simp only [Option.some.injEq] at h₁ h₂ h₃
            exact Or.inr (by rw [h₁, h₂, h₃])
      · intro e' he' i j hi hj
        rcases mem_append.1 he' with he' | he'
        · obtain ⟨t, ht⟩ := h.interned e' he' i j hi hj
          exact ⟨t, Dict.index_intern_of_some ht⟩
        · rw [mem_singleton.1 he']
          exact ⟨tid, htid⟩
      · simp [countP_append, h.length, hs, hd]
      · have h₁ := Dict.names_length_intern_le k.etypes e.2.2
        have h₂ := h.types_le
        simp only [length_append, length_singleton]
        omega

theorem keepEdges_inv (nodes : List String) (edges : List EdgeRow) :
    Kept.Inv (nodeDict nodes).index edges (keepEdges nodes edges) := by
  have key : ∀ (rest done : List EdgeRow) (k : Kept), Kept.Inv (nodeDict nodes).index done k →
      Kept.Inv (nodeDict nodes).index (done ++ rest) (rest.foldl (Kept.add (nodeDict nodes).index) k) := by
    intro rest
    induction rest with
    | nil => intro done k h; simpa using h
    | cons e rest ih =>
      intro done k h
      simpa using ih (done ++ [e]) (k.add (nodeDict nodes).index e) (Kept.inv_add h e)
  have hinit : Kept.Inv (nodeDict nodes).index [] ⟨Dict.empty, []⟩ :=
    ⟨Dict.wf_empty, by simp, by simp, by simp, by simp [Dict.empty]⟩
  simpa [keepEdges] using key edges [] _ hinit

theorem nodeDict_wf (nodes : List String) : (nodeDict nodes).WF := Dict.wf_empty.internAll nodes

variable {nodes : List String}

theorem mem_nodeDict : x ∈ (nodeDict nodes).names ↔ x ∈ nodes := by
  rw [nodeDict, Dict.mem_names_internAll Dict.wf_empty]
  simp [Dict.empty]

theorem nodeDict_index_lt {i : ℕ}
    (h : (nodeDict nodes).index x = some i) : i < (nodeDict nodes).names.length := by
  obtain ⟨hmem, rfl⟩ := (nodeDict_wf nodes).index_eq_some.1 h
  have := idxOf_lt_length_of_mem hmem
  exact lt_of_le_of_lt (Nat.mod_le _ _) this

theorem keepEdges_lt {edges : List EdgeRow} {t : Triple} (h : t ∈ (keepEdges nodes edges).kept) :
    t.1 < (nodeDict nodes).names.length ∧ t.2.1 < (nodeDict nodes).names.length := by
  obtain ⟨e, -, h₁, h₂, -⟩ := ((keepEdges_inv nodes edges).mem t).1 h
  exact ⟨nodeDict_index_lt h₁, nodeDict_index_lt h₂⟩

end GraphTopo
