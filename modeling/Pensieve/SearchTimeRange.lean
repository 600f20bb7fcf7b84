/-
**The time range of a data search.**

A data search ranks the rows of a source by two legs and fuses them.  The lexical leg asks the text
index, and where there is none, or it does not answer, the query that the explore grammar compiles
to.
-/

import Pensieve.LiveTail

namespace DataSearch

open List
open Discover (TableRef TimeRange Text findTimestampColumn isWhitespace)

/-! ### Rows -/

inductive Cell
  | null
  | stamp (ns : ℤ)
  | text (s : String)
  deriving DecidableEq

/-- What a row looks like to the search: its cells, whether a text column contains the query, how an instant is read
and printed (`ms_to_iso`), and the text that rows are told apart by (`row_key`). -/
structure Lib (R : Type) where
  cell : R → String → Cell
  contains : Text → R → Bool
  instant : String → Option ℤ
  msToIso : ℤ → String
  rowKey : R → String
  rowKey_injective : ∀ a b, rowKey a = rowKey b → a = b

/-- A source: its rows by extent, whether its format has an object store, and the columns with a text index and with a
vector index. -/
structure Source (R : Type) where
  table : TableRef
  extents : List (List R)
  objectStore : Bool
  ftsColumns : List String
  ivfColumns : List String

variable {R : Type}

def Source.rows (src : Source R) : List R := src.extents.flatten

/-- How the rows are ranked: in which order they are scanned and in which order of distance, and what the indexes
answer, if they do (`bm25_topk`, `ann_topk`). -/
structure Ranking (R : Type) where
  scan : List R
  nearest : List R
  bm25 : String → Text → Option (List R)
  ann : String → Option (List R)

/-- Rows are rows of the source, and a scan that does not fail meets them all. -/
structure Ranking.Sound (k : Ranking R) (src : Source R) : Prop where
  scan : k.scan = [] ∨ k.scan.Perm src.rows
  nearest : k.nearest = [] ∨ k.nearest.Perm src.rows
  bm25 : ∀ column query rows, k.bm25 column query = some rows → ∀ r ∈ rows, r ∈ src.rows
  ann : ∀ column rows, k.ann column = some rows → ∀ r ∈ rows, r ∈ src.rows

/-! ### The legs -/

def perLegK : ℕ := 50

def rrfK : ℚ := 60

def floatLists : List String :=
  ["List(Float16)", "List(Float32)", "List(Float64)", "LargeList(Float16)", "LargeList(Float32)", "LargeList(Float64)"]

def isVectorType : Arrow.DataType → Bool
  | .fixedSizeList inner _ => inner = .other "Float16" || inner = .float32 || inner = .float64
  | .other name => floatLists.contains name
  | _ => false

def vectorColumn (table : TableRef) : Option String :=
  (table.schema.find? fun f => isVectorType f.dataType).map Arrow.Field.name

def ftsColumn (src : Source R) (query : Text) : Option String :=
  if query.all isWhitespace || !src.objectStore || src.extents.isEmpty then none else src.ftsColumns.head?

def bm25LexicalRows (src : Source R) (k : Ranking R) (query : Text) : Option (List R) :=
  (ftsColumn src query).bind fun column => k.bm25 column query

def annVectorRows (src : Source R) (k : Ranking R) (column : String) : Option (List R) :=
  if !src.objectStore || src.extents.isEmpty || !src.ivfColumns.contains column then none else k.ann column

def searchedVectors (src : Source R) (embedded : Bool) : Option String :=
  if embedded && src.table.schema.any fun f => !isVectorType f.dataType then vectorColumn src.table else none

variable (lib : Lib R)

def compares (table : TableRef) (range : Option TimeRange) (r : R) : Bool :=
  match range, findTimestampColumn table with
  | some w, some ts =>
    match ts.kind, lib.cell r ts.name with
    | .timestamp, .stamp ns => w.fromMs * 1000000 ≤ ns && ns < w.toMs * 1000000
    | .isoString, .text s => lib.msToIso w.fromMs ≤ s && s < lib.msToIso w.toMs
    | _, _ => false
  | _, _ => true

def keeps (table : TableRef) (query : Text) (range : Option TimeRange) (r : R) : Bool :=
  (query.all isWhitespace || lib.contains query r) && compares lib table range r

def lexicalRows (src : Source R) (k : Ranking R) (query : Text) (range : Option TimeRange) : List R :=
  match bm25LexicalRows src k query with
  | some rows => rows
  | none => (k.scan.filter (keeps lib src.table query range)).take perLegK

def vectorRows (src : Source R) (k : Ranking R) (embedded : Bool) : List R :=
  match searchedVectors src embedded with
  | some column => (annVectorRows src k column).getD (k.nearest.take perLegK)
  | none => []

def enter (row : R) (score : ℚ) : List (ℚ × R) → List (ℚ × R)
  | [] => [(score, row)]
  | e :: es => if lib.rowKey e.2 = lib.rowKey row then (e.1 + score, e.2) :: es else e :: enter row score es

def fuse (fused : List (ℚ × R)) (rows : List R) : List (ℚ × R) :=
  rows.zipIdx.foldl (fun acc q => enter lib q.1 (1 / (rrfK + q.2)) acc) fused

/-- **`search_one_source`**: the rows come in the order of their keys. -/
def searchOneSource (src : Source R) (k : Ranking R) (query : Text) (embedded : Bool) (range : Option TimeRange) :
    List (ℚ × R) :=
  (fuse lib (fuse lib [] (lexicalRows lib src k query range)) (vectorRows src k embedded)).insertionSort
    fun a b => lib.rowKey a.2 ≤ lib.rowKey b.2

/-! ### What is asked of the hits -/

def eventTime (r : R) (column : String) : Option ℤ :=
  match lib.cell r column with
  | .null => none
  | .stamp ns => some ns
  | .text s => lib.instant s

/-- **The row has its event time inside the range**, where a range is given and the table has a time column. -/
def InRange (table : TableRef) (range : Option TimeRange) (r : R) : Prop :=
  ∀ w, range = some w → ∀ ts, findTimestampColumn table = some ts →
    ∃ t, eventTime lib r ts.name = some t ∧ w.fromMs * 1000000 ≤ t ∧ t < w.toMs * 1000000

/-- **A leg runs that does not look at the range**: the text index can be asked, or there are vectors to search. -/
def Unfiltered (src : Source R) (query : Text) (embedded : Bool) : Prop :=
  (ftsColumn src query).isSome ∨ (searchedVectors src embedded).isSome

variable {lib}

theorem inRange_of_compares {table : TableRef} {range : Option TimeRange} {r : R} {ts : Discover.TsColumn}
    (hts : findTimestampColumn table = some ts) (hkind : ts.kind = .timestamp)
    (h : compares lib table range r = true) (w : TimeRange) (hw : range = some w) :
    ∃ t, eventTime lib r ts.name = some t ∧ w.fromMs * 1000000 ≤ t ∧ t < w.toMs * 1000000 := by
  subst hw
  simp only [compares, hts, hkind] at h
  cases hcell : lib.cell r ts.name with
  | null | text s => simp [hcell] at h
  | stamp ns =>
    rw [hcell] at h
    refine ⟨ns, by rw [eventTime, hcell], ?_⟩
    simpa using h

/-! ### Fusion -/

theorem exists_mem_enter {row r : R} {score : ℚ} {es : List (ℚ × R)} :
    (∃ s, (s, r) ∈ enter lib row score es) ↔ (∃ s, (s, r) ∈ es) ∨ r = row := by
  induction es with
  | nil => simp [enter]
  | cons e es ih =>
    obtain ⟨t, x⟩ := e
    simp only [enter]
    split
    next hkey =>
      obtain rfl := lib.rowKey_injective _ _ hkey
      simp only [mem_cons, Prod.mk.injEq, exists_or, exists_and_right, exists_eq, true_and]
      tauto
    next => simp only [mem_cons, exists_or, ih, or_assoc]

theorem exists_mem_fuse {fused : List (ℚ × R)} {rows : List R} {r : R} :
    (∃ s, (s, r) ∈ fuse lib fused rows) ↔ (∃ s, (s, r) ∈ fused) ∨ r ∈ rows := by
  have hfold : ∀ (entries : List (R × ℕ)) (acc : List (ℚ × R)),
      (∃ s, (s, r) ∈ entries.foldl (fun acc q => enter lib q.1 (1 / (rrfK + q.2)) acc) acc) ↔
        (∃ s, (s, r) ∈ acc) ∨ r ∈ entries.map Prod.fst := by
    intro entries
    induction entries with
    | nil => simp
    | cons q entries ih =>
      intro acc
      rw [foldl_cons, ih, exists_mem_enter, or_assoc, map_cons, mem_cons]
  rw [fuse, hfold, zipIdx_map_fst]

theorem exists_mem_searchOneSource {src : Source R} {k : Ranking R} {query : Text} {embedded : Bool}
    {range : Option TimeRange} {r : R} : (∃ s, (s, r) ∈ searchOneSource lib src k query embedded range) ↔
      r ∈ lexicalRows lib src k query range ∨ r ∈ vectorRows src k embedded := by
  simp only [searchOneSource, mem_insertionSort]
  rw [exists_mem_fuse, exists_mem_fuse]
  simp

section Hits

variable {src : Source R} {k : Ranking R} {query : Text} {embedded : Bool} {range : Option TimeRange} {r : R}

theorem mem_lexicalRows (hk : k.Sound src) (h : r ∈ lexicalRows lib src k query range) :
    r ∈ src.rows ∧ ((ftsColumn src query).isSome ∨ keeps lib src.table query range r = true) := by
  rw [lexicalRows] at h
  split at h
  next rows hbm25 =>
    obtain ⟨column, hcolumn, hrows⟩ := Option.bind_eq_some_iff.1 hbm25
    exact ⟨hk.bm25 column query rows hrows r h, .inl (Option.isSome_of_eq_some hcolumn)⟩
  next =>
    obtain ⟨hscan, hkeeps⟩ := mem_filter.1 (mem_of_mem_take h)
    rcases hk.scan with hnone | hperm
    · simp [hnone] at hscan
    · exact ⟨hperm.mem_iff.1 hscan, .inr hkeeps⟩

theorem mem_vectorRows (hk : k.Sound src) (h : r ∈ vectorRows src k embedded) :
    r ∈ src.rows ∧ (searchedVectors src embedded).isSome := by
  rw [vectorRows] at h
  split at h
  next column hcolumn =>
    refine ⟨?_, Option.isSome_of_eq_some hcolumn⟩
    cases hann : annVectorRows src k column with
    | some rows =>
      rw [hann] at h
      rw [annVectorRows] at hann
      split at hann
      next => cases hann
      next => exact hk.ann column rows hann r h
    | none =>
      rw [hann] at h
      rcases hk.nearest with hnone | hperm
      · simp [hnone] at h
      · exact hperm.mem_iff.1 (mem_of_mem_take h)
  next => cases h

theorem exists_perm_cons (hr : r ∈ src.rows) : ∃ rest, (r :: rest).Perm src.rows := by
  obtain ⟨before, after, hrows⟩ := append_of_mem hr
  exact ⟨before ++ after, hrows ▸ perm_middle.symm⟩

/-- **Exactly when all hits are in the range**, however the rows are ranked: a leg that does not look at the range runs
only if no row of the source is out of it, and where the time column is text, a row that passes the comparison of texts is
in it. -/
theorem hits_in_range_iff (lib : Lib R) (src : Source R) (query : Text) (embedded : Bool) (range : Option TimeRange) :
    (∀ k : Ranking R, k.Sound src → ∀ hit ∈ searchOneSource lib src k query embedded range,
        InRange lib src.table range hit.2) ↔
      (Unfiltered src query embedded → ∀ r ∈ src.rows, InRange lib src.table range r) ∧
        ∀ ts, findTimestampColumn src.table = some ts → ts.kind = .isoString →
          ∀ r ∈ src.rows, keeps lib src.table query range r = true → InRange lib src.table range r := by
  constructor
  · intro h
    have hfound : ∀ {k : Ranking R} {r : R}, k.Sound src →
        r ∈ lexicalRows lib src k query range ∨ r ∈ vectorRows src k embedded → InRange lib src.table range r := by
      intro k r hk hr
      obtain ⟨s, hs⟩ := exists_mem_searchOneSource.2 hr
      exact h k hk _ hs
    refine ⟨fun hunfiltered r hr => ?_, fun _ _ _ r hr hkeeps => ?_⟩
    · obtain ⟨rest, hperm⟩ := exists_perm_cons hr
      rcases hunfiltered with hfts | hvectors
      · -- the text index finds this row
        refine @hfound ⟨[], [], fun _ _ => some [r], fun _ => none⟩ r ⟨.inl rfl, .inl rfl, ?_, nofun⟩ (.inl ?_)
        · intro _ _ rows hrows x hx
          obtain rfl := Option.some.inj hrows
          rwa [mem_singleton.1 hx]
        · obtain ⟨column, hcolumn⟩ := Option.isSome_iff_exists.1 hfts
          simp [lexicalRows, bm25LexicalRows, hcolumn]
      · -- this row is the nearest one, and the vector index does not answer
        refine @hfound ⟨[], r :: rest, fun _ _ => none, fun _ => none⟩ r ⟨.inl rfl, .inr hperm, nofun, nofun⟩ (.inr ?_)
        obtain ⟨column, hcolumn⟩ := Option.isSome_iff_exists.1 hvectors
        simp [vectorRows, hcolumn, annVectorRows, perLegK]
    · -- this row is the first that a scan meets
      obtain ⟨rest, hperm⟩ := exists_perm_cons hr
      refine @hfound ⟨r :: rest, [], fun _ _ => none, fun _ => none⟩ r ⟨.inr hperm, .inl rfl, nofun, nofun⟩ (.inl ?_)
      simp [lexicalRows, bm25LexicalRows, hkeeps, perLegK]
  · rintro ⟨hall, hcompiled⟩ k hk ⟨s, r⟩ hmem
    rcases exists_mem_searchOneSource.1 ⟨s, hmem⟩ with hlexical | hvector
    · obtain ⟨hr, hfts | hkeeps⟩ := mem_lexicalRows hk hlexical
      · exact hall (.inl hfts) r hr
      · intro w hw ts hts
        cases hkind : ts.kind with
        | isoString => exact hcompiled ts hts hkind r hr hkeeps w hw ts hts
        | timestamp => exact inRange_of_compares hts hkind (Bool.and_eq_true_iff.1 hkeeps).2 w hw
    · obtain ⟨hr, hvectors⟩ := mem_vectorRows hk hvector
      exact hall (.inr hvectors) r hr

end Hits

def stamps : Lib ℕ where
  cell r _ := .stamp r
  contains _ _ := false
  instant _ := none
  msToIso _ := ""
  rowKey r := String.ofList (List.replicate r 'x')
  rowKey_injective a b h := by simpa using congrArg String.length h

def notes : Source ℕ where
  table := ⟨"notes".toList, [⟨"ts", .timestamp .nanosecond none⟩, ⟨"embedding", .fixedSizeList .float32 384⟩]⟩
  extents := [[5]]
  objectStore := true
  ftsColumns := []
  ivfColumns := []

/-- **A row out of the range is found by its embedding**: no text contains the query. -/
theorem old_row_found :
    ¬∀ (lib : Lib ℕ) (src : Source ℕ) (k : Ranking ℕ) (query : Text) (embedded : Bool) (range : Option TimeRange),
      k.Sound src → ∀ hit ∈ searchOneSource lib src k query embedded range, InRange lib src.table range hit.2 := by
  intro h
  obtain ⟨t, ht, hfrom, -⟩ := h stamps notes ⟨[5], [5], fun _ _ => none, fun _ => none⟩ "incident".toList true
    (some ⟨1, 2⟩) ⟨.inr (.refl _), .inr (.refl _), nofun, nofun⟩ (1 / 60, 5) (by decide +kernel) _ rfl
    ⟨"ts", .timestamp⟩ (by decide)
  obtain rfl := Option.some.inj ht
  exact absurd hfrom (by decide)

end DataSearch
