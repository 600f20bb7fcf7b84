/-
**The nearest rows of a table.**

A search for the rows that are nearest to a vector goes over the extents.  Where an extent has a
sidecar, it reads the lists of the nearest centroids and takes their entries as candidates, by the
estimates of their codes; where it has none, all rows are compared.
-/

import Pensieve.IvfSidecar
import Pensieve.Rows

namespace AnnSearch

open List
open Buffers (Outcome fail)
open IvfFile
open Wire (Bytes)

/-! ### Vectors -/

abbrev Vec := List F32

/-- What the search takes of arithmetic: of the builder, whether a norm is at most `1e-12`, a vector through its norm, the
distance of vectors of one length (none of a zero vector), the estimate of a code, and the distance of a centroid. -/
structure Lib (D A : Type) where
  ops : QuantOps
  rotations : Rotations
  utf8Error : Bytes → String
  short : Vec → Bool
  unit : Vec → Vec
  length_unit : ∀ v, (unit v).length = v.length
  cosine : Vec → Vec → Option D
  estimate : VectorCode → Vec → A
  sqL2 : Vec → Vec → A

variable {D A : Type} [LinearOrder D] [LinearOrder A] (lib : Lib D A)

def l2Normalize (v : Vec) : Vec := if lib.short v then v else lib.unit v

def cosineDistanceVec (a b : Vec) : Option D := if a.length ≠ b.length ∨ a = [] then none else lib.cosine a b

/-! ### Extents -/

def vectorsOf (blocks : List (List (Option Vec))) : List (RowAddress × Vec) :=
  blocks.zipIdx.flatMap fun b => b.1.zipIdx.filterMap fun r => r.1.map fun v => (⟨.ofNat b.2, .ofNat r.2⟩, v)

/-- The rows that the builder of sidecars indexes (`extract_rows`). -/
def extractRows (blocks : List (List (Option Vec))) : List (RowAddress × Vec) :=
  (vectorsOf blocks).filterMap fun q => if lib.short q.2 then none else some (q.1, lib.unit q.2)

/-- **An extent**: its id, as text, and its column of vectors of one length.  A sidecar was built of these. -/
structure Extent where
  id : String
  dim : ℕ
  blocks : List (List (Option Vec))
  sidecar : Option Bytes
  fewBlocks : blocks.length < 2 ^ 32
  fewRows : ∀ block ∈ blocks, block.length < 2 ^ 32
  indexable : (extractRows lib blocks).length < 2 ^ 32 ∧ dim < 2 ^ 32
  widths : ∀ q ∈ vectorsOf blocks, q.2.length = dim
  built : ∀ bytes, sidecar = some bytes → bytes.length < 2 ^ 64 ∧
    ∃ params, buildIvfRabitq lib.ops lib.rotations (extractRows lib blocks) dim none = .ok (bytes, params)

structure Hit (D : Type) where
  extentId : String
  addr : RowAddress
  distance : D
  deriving DecidableEq

structure ApproxCand (A : Type) where
  extentId : String
  addr : RowAddress
  approxDist : A
  deriving DecidableEq

def hitOf (id : String) (q : Vec) (row : RowAddress × Vec) : Option (Hit D) :=
  (cosineDistanceVec lib q (l2Normalize lib row.2)).map fun d => ⟨id, row.1, d⟩

def scanExact (q : Vec) (id : String) (blocks : List (List (Option Vec))) : List (Hit D) :=
  (vectorsOf blocks).filterMap (hitOf lib id q)

/-! ### The search -/

structure AnnParams where
  k : ℕ
  nprobe : ℕ
  rerankFactor : ℕ
  exactScanMaxRows : ℕ
  deriving DecidableEq

def planForceExact (hasPrefilter : Bool) (survivingRows maxRows : ℕ) : Bool :=
  hasPrefilter && 0 < maxRows && survivingRows ≤ maxRows

def effectiveNprobe (base nlist : ℕ) : ℕ :=
  if nlist = 0 then 0 else max (min (max base ((nlist + 3) / 4)) nlist) 1

def probe (buf : Bytes) (header : Header) (q : Vec) (nprobe : ℕ) : Outcome SidecarError (List ℕ) := do
  let centroids ← readCentroids buf header
  if q.length ≠ header.dim.toNat then
    fail (.corrupt ("query dim " ++ toString q.length ++ " != index dim " ++ toString header.dim))
  else
    let scored := (centroids.zipIdx.map fun c => (c.2, lib.sqL2 q c.1)).insertionSort
      fun a b => a.2 < b.2 ∨ a.2 = b.2 ∧ a.1 ≤ b.1
    pure ((scored.take nprobe).map Prod.fst)

/-- The candidates of a sidecar; `tree` is the selection of the global tree, if there is one. -/
def sidecarCands (params : AnnParams) (tree : Option (String → Option (List ℕ))) (q : Vec) (id : String)
    (bytes : Bytes) : Outcome SidecarError (List (ApproxCand A)) := do
  let header ← readHeader lib.utf8Error bytes
  if q.length ≠ header.dim.toNat then pure []
  else
    let probed ← match tree with
      | some select => pure (((select id).getD []).filter (· < header.nlist.toNat))
      | none => probe lib bytes header q (effectiveNprobe params.nprobe header.nlist.toNat)
    let parts ← probed.mapM (readPartition bytes header)
    pure (parts.flatten.map fun entry => ⟨id, entry.addr, lib.estimate entry.code q⟩)

def truncatePool (approx : List (ApproxCand A)) (poolSize : ℕ) : List (ApproxCand A) :=
  (approx.insertionSort fun a b => a.approxDist ≤ b.approxDist).take poolSize

/-- `rerank_factor.saturating_mul(k).max(k)` -/
def poolSize (params : AnnParams) : ℕ := max (min (params.rerankFactor * params.k) (2 ^ 64 - 1)) params.k

def rerankBlock (extents : List (Extent lib)) (q : Vec) (cands : List (ApproxCand A)) (key : String × UInt32) :
    Outcome SidecarError (List (Hit D)) :=
  match extents.find? fun e => e.id = key.1 with
  | none => pure []
  | some e =>
    match e.blocks[key.2.toNat]? with
    | none => fail (.corrupt ("block id " ++ toString key.2 ++ " out of range (block_count=" ++
        toString e.blocks.length ++ ")"))
    | some block =>
      pure ((cands.filter fun c => (c.extentId, c.addr.block) = key).filterMap fun c =>
        (block[c.addr.row.toNat]?).join.bind fun v => hitOf lib e.id q (c.addr, v))

def keyLe (a b : String × UInt32) : Prop := a.1 < b.1 ∨ a.1 = b.1 ∧ a.2 ≤ b.2

instance : DecidableRel keyLe := fun _ _ => inferInstanceAs (Decidable (_ ∨ _))

def exactRerank (extents : List (Extent lib)) (q : Vec) (cands : List (ApproxCand A)) :
    Outcome SidecarError (List (Hit D)) := do
  let keys := ((cands.map fun c => (c.extentId, c.addr.block)).dedup).insertionSort keyLe
  let hits ← keys.mapM (rerankBlock lib extents q cands)
  pure hits.flatten

def hitLe (a b : Hit D) : Prop :=
  a.distance < b.distance ∨ a.distance = b.distance ∧ (a.extentId < b.extentId ∨ a.extentId = b.extentId ∧
      (a.addr.block < b.addr.block ∨ a.addr.block = b.addr.block ∧ a.addr.row ≤ b.addr.row))

instance : DecidableRel (hitLe : Hit D → Hit D → Prop) := fun _ _ => inferInstanceAs (Decidable (_ ∨ _))

def sortHits (hits : List (Hit D)) : List (Hit D) := hits.insertionSort hitLe

def Extent.index {lib : Lib D A} (e : Extent lib) (forceExact : Bool) : Option Bytes :=
  if forceExact then none else e.sidecar

def forceExactOf (params : AnnParams) (prefilter : Bool) (extents : List (Extent lib)) : Bool :=
  planForceExact prefilter (extents.map fun e => (e.blocks.map List.length).sum).sum params.exactScanMaxRows

def scanExtent (params : AnnParams) (forceExact : Bool) (tree : Option (String → Option (List ℕ))) (q : Vec)
    (e : Extent lib) : Outcome SidecarError (List (ApproxCand A) × List (Hit D)) :=
  match e.index forceExact with
  | some bytes => do
      let cands ← sidecarCands lib params tree q e.id bytes
      pure (cands, [])
  | none => pure ([], scanExact lib q e.id e.blocks)

/-- **`ann_topk`**, over the extents that the catalog lists. -/
def annTopk (params : AnnParams) (prefilter : Bool) (tree : Option (String → Option (List ℕ)))
    (extents : List (Extent lib)) (qvec : Vec) : Outcome SidecarError (List (Hit D)) := do
  let q := l2Normalize lib qvec
  let scans ← extents.mapM (scanExtent lib params (forceExactOf lib params prefilter extents) tree q)
  let pool := truncatePool (scans.flatMap Prod.fst) (poolSize params)
  let reranked ← exactRerank lib extents q pool
  pure ((sortHits (reranked ++ scans.flatMap Prod.snd)).take params.k)

/-! ### What is asked of it -/

def Extent.searched {lib : Lib D A} (e : Extent lib) (forceExact : Bool) : List (List (Option Vec)) :=
  if (e.index forceExact).isSome then e.blocks.map (List.map (Option.filter fun v => !lib.short v)) else e.blocks

/-- **A comparison with all rows**, of which the `k` nearest are returned. -/
def exactTopk (k : ℕ) (qvec : Vec) (tables : List (String × List (List (Option Vec)))) : List (Hit D) :=
  (sortHits (tables.flatMap fun t => scanExact lib (l2Normalize lib qvec) t.1 t.2)).take k

def Extent.candidates {lib : Lib D A} (e : Extent lib) (forceExact : Bool) (q : Vec) : ℕ :=
  if (e.index forceExact).isSome ∧ q.length = e.dim then (extractRows lib e.blocks).length else 0

/-- **Nothing is cut off**: all lists of a sidecar are read, and there is room for all candidates. -/
structure Uncut (params : AnnParams) (forceExact : Bool) (extents : List (Extent lib)) (q : Vec) : Prop where
  ids : (extents.map Extent.id).Nodup
  probed : ∀ e ∈ extents, ∀ bytes, e.index forceExact = some bytes →
    ∀ header, readHeader lib.utf8Error bytes = .ok header →
      header.nlist.toNat ≤ effectiveNprobe params.nprobe header.nlist.toNat
  room : (extents.map fun e => e.candidates forceExact q).sum ≤ poolSize params

section Places

variable {blocks : List (List (Option Vec))}

theorem get_of_mem_vectorsOf (hblocks : blocks.length < 2 ^ 32) (hrows : ∀ block ∈ blocks, block.length < 2 ^ 32)
    {row : RowAddress × Vec} (h : row ∈ vectorsOf blocks) :
    ∃ block, blocks[row.1.block.toNat]? = some block ∧ block[row.1.row.toNat]? = some (some row.2) := by
  obtain ⟨⟨block, b⟩, hb, hrow⟩ := mem_flatMap.1 h
  obtain ⟨⟨r, i⟩, hi, hmap⟩ := mem_filterMap.1 hrow
  have hb := mem_zipIdx_iff_getElem?.1 hb
  have hi := mem_zipIdx_iff_getElem?.1 hi
  obtain ⟨v, rfl, rfl⟩ := Option.map_eq_some_iff.1 hmap
  have hlt : b < 2 ^ 32 := (List.getElem?_eq_some_iff.1 hb).1.trans hblocks
  have hlt' : i < 2 ^ 32 := (List.getElem?_eq_some_iff.1 hi).1.trans (hrows block (mem_of_getElem? hb))
  refine ⟨block, ?_, ?_⟩
  · rw [toNat_ofNat hlt]
    exact hb
  · rw [toNat_ofNat hlt']
    exact hi

theorem nodup_zipIdx_map {α β : Type} {l : List α} {f : ℕ → β} (h : ∀ i < l.length, ∀ j < l.length, f i = f j → i = j) :
    (l.zipIdx.map fun p => f p.2).Nodup := by
  have hsnd : (l.zipIdx.map fun p => f p.2) = (List.range l.length).map f := by
    rw [range_eq_range', ← zipIdx_map_snd 0 l, map_map]
    rfl
  rw [hsnd]
  refine List.Nodup.map_on (fun i hi j hj => h i ?_ j ?_) nodup_range
  · exact mem_range.1 hi
  · exact mem_range.1 hj

theorem ofNat_inj {i j : ℕ} (hi : i < 2 ^ 32) (hj : j < 2 ^ 32) (h : UInt32.ofNat i = UInt32.ofNat j) : i = j := by
  have htoNat := congrArg UInt32.toNat h
  rwa [toNat_ofNat hi, toNat_ofNat hj] at htoNat

theorem sublist_map_filterMap {α β γ : Type} {f : α → Option β} {g : β → γ} {g' : α → γ}
    (h : ∀ a b, f a = some b → g b = g' a) (l : List α) : ((l.filterMap f).map g).Sublist (l.map g') := by
  induction l with
  | nil => exact .slnil
  | cons a l ih =>
    cases hf : f a with
    | none =>
      rw [filterMap_cons_none hf]
      exact ih.cons _
    | some b =>
      rw [filterMap_cons_some hf, map_cons, map_cons, h a b hf]
      exact ih.cons_cons _

theorem nodup_addresses (hblocks : blocks.length < 2 ^ 32) (hrows : ∀ block ∈ blocks, block.length < 2 ^ 32) :
    ((vectorsOf blocks).map Prod.fst).Nodup := by
  have haddr (b : ℕ) (rows : List (Option Vec × ℕ)) :
      ((rows.filterMap fun r => r.1.map fun v => ((⟨.ofNat b, .ofNat r.2⟩ : RowAddress), v)).map Prod.fst).Sublist
        (rows.map fun r => ⟨.ofNat b, .ofNat r.2⟩) := by
    refine sublist_map_filterMap (fun r row hrow => ?_) rows
    obtain ⟨v, -, rfl⟩ := Option.map_eq_some_iff.1 hrow
    rfl
  rw [vectorsOf, map_flatMap, nodup_flatMap]
  constructor
  · rintro ⟨block, b⟩ hb
    have hlen := hrows block (mem_of_getElem? (mem_zipIdx_iff_getElem?.1 hb))
    have hnumbers : (block.zipIdx.map fun r => (⟨.ofNat b, .ofNat r.2⟩ : RowAddress)).Nodup :=
      @nodup_zipIdx_map _ _ block (fun i => RowAddress.mk (.ofNat b) (.ofNat i)) fun i hi j hj heq =>
        ofNat_inj (hi.trans hlen) (hj.trans hlen) (RowAddress.mk.inj heq).2
    exact hnumbers.sublist (haddr b _)
  · have hnumbers : (blocks.zipIdx.map fun p => UInt32.ofNat p.2).Nodup := nodup_zipIdx_map fun i hi j hj =>
      ofNat_inj (hi.trans hblocks) (hj.trans hblocks)
    refine (pairwise_map.1 hnumbers).imp fun {x y} hne => ?_
    intro addr hmem hmem'
    obtain ⟨i, -, hi⟩ := mem_map.1 ((haddr x.2 _).subset hmem)
    obtain ⟨j, -, hj⟩ := mem_map.1 ((haddr y.2 _).subset hmem')
    exact hne (RowAddress.mk.inj (hi.trans hj.symm)).1

theorem vectorsOf_filter (p : Vec → Bool) :
    vectorsOf (blocks.map (List.map (Option.filter p))) = (vectorsOf blocks).filter fun row => p row.2 := by
  simp only [vectorsOf, zipIdx_map, flatMap_map, filter_flatMap]
  refine flatMap_congr fun b _ => ?_
  simp only [Prod.map_fst, Prod.map_snd, id, zipIdx_map, filterMap_map, filter_filterMap]
  refine filterMap_congr fun r _ => ?_
  obtain ⟨_ | v, i⟩ := r
  · rfl
  · cases hp : p v <;> simp [Option.filter, hp]

end Places

section Sidecars

variable {lib}

theorem mapM_perm {E α β : Type} {f : α → Outcome E β} {l l' : List α} {r' : List β} (h : l.Perm l')
    (h' : l'.mapM f = .ok r') : ∃ r, l.mapM f = .ok r ∧ r.Perm r' := by
  have hall := Fallible.mapM_eq_ok_iff.1 h'
  obtain ⟨r, hr, hperm⟩ := perm_comp_forall₂ h hall
  exact ⟨r, Fallible.mapM_eq_ok_iff.2 hr, hperm⟩

omit [LinearOrder D] in
theorem probe_eq {x : VectorIndex} {header : Header} {q : Vec} {n : ℕ}
    (hcentroids : readCentroids (write x) header = .ok x.centroids) (hdim : q.length = header.dim.toNat)
    (hn : x.centroids.length ≤ n) :
    ∃ parts, probe lib (write x) header q n = .ok parts ∧ parts.Perm (List.range x.centroids.length) := by
  set scored := (x.centroids.zipIdx.map fun c => (c.2, lib.sqL2 q c.1)).insertionSort
    fun a b => a.2 < b.2 ∨ a.2 = b.2 ∧ a.1 ≤ b.1 with hscored
  have hperm : scored.Perm (x.centroids.zipIdx.map fun c => (c.2, lib.sqL2 q c.1)) := perm_insertionSort _ _
  have hall : scored.take n = scored := by
    rw [take_of_length_le]
    rwa [hperm.length_eq, length_map, length_zipIdx]
  refine ⟨scored.map Prod.fst, ?_, (hperm.map _).trans ?_⟩
  · simp only [probe, hcentroids, Except.bind, bind, hdim, ne_eq, not_true_eq_false, if_false, ← hscored, hall]
    rfl
  · rw [map_map, range_eq_range', ← zipIdx_map_snd 0 x.centroids]
    exact .refl _

omit [LinearOrder D] in
/-- **Every row of a sidecar is a candidate, once**, if all lists are read; there is none for a query of another
length. -/
theorem sidecarCands_eq (params : AnnParams) (q : Vec) (e : Extent lib) {bytes : Bytes} (hbytes : e.sidecar = some bytes)
    (hprobed : ∀ header, readHeader lib.utf8Error bytes = .ok header →
      header.nlist.toNat ≤ effectiveNprobe params.nprobe header.nlist.toNat) :
    ∃ cands, sidecarCands lib params none q e.id bytes = .ok cands ∧ (∀ c ∈ cands, c.extentId = e.id) ∧
      (cands.map ApproxCand.addr).Perm (if q.length = e.dim then (extractRows lib e.blocks).map Prod.fst else []) := by
  obtain ⟨hsize, build, hbuilt⟩ := e.built bytes hbytes
  have hmodel : (GraphTopo.utf8 ((none : Option String).getD "")).length < 2 ^ 32 := Nat.pow_pos (by norm_num)
  have hfits := fits_buildIndex hbuilt e.indexable.2 e.indexable.1 hmodel nofun hsize
  obtain rfl : bytes = _ := (buildIvfRabitq_eq_ok hbuilt).1
  set x := buildIndex lib.ops lib.rotations (extractRows lib e.blocks) e.dim none with hx
  obtain ⟨header, hheader, ⟨hdim, -, hnlist, -⟩, hcentroids, hparts⟩ := readParts lib.utf8Error hfits
  have hdim' : header.dim.toNat = e.dim := hdim
  by_cases hq : q.length = e.dim
  · have hn := hprobed header hheader
    rw [hnlist] at hn hparts
    obtain ⟨probed, hprobe, hperm⟩ := @probe_eq _ _ _ lib x header q _ hcentroids (hq.trans hdim'.symm) hn
    obtain ⟨parts, hread, hpartsPerm⟩ := mapM_perm hperm hparts
    refine ⟨parts.flatten.map fun entry => ⟨e.id, entry.addr, lib.estimate entry.code q⟩, ?_, ?_, ?_⟩
    · simp only [sidecarCands, hheader, Except.bind, bind, hq, hdim', ne_eq, not_true_eq_false, if_false, hnlist, hprobe,
        hread]
      rfl
    · intro c hc
      obtain ⟨entry, -, rfl⟩ := mem_map.1 hc
      rfl
    · rw [if_pos hq, map_map]
      have hentries := (flatten_partitions lib.ops lib.rotations (extractRows lib e.blocks) e.dim none).2
      have haddr := ((hpartsPerm.flatten.trans hentries).map Entry.addr)
      rwa [map_map] at haddr
  · refine ⟨[], ?_, nofun, by rw [if_neg hq, map_nil]⟩
    simp only [sidecarCands, hheader, Except.bind, bind, hdim', ne_eq, hq, not_false_eq_true, if_true]
    rfl

end Sidecars

section Rerank

variable {lib} {extents : List (Extent lib)} {q : Vec} {cands : List (ApproxCand A)}

def resolve (extents : List (Extent lib)) (q : Vec) (c : ApproxCand A) : Option (Hit D) :=
  (extents.find? fun e => e.id = c.extentId).bind fun e =>
    (e.blocks[c.addr.block.toNat]?).bind fun block =>
      (block[c.addr.row.toNat]?).join.bind fun v => hitOf lib e.id q (c.addr, v)

omit [LinearOrder D] [LinearOrder A] in
theorem exactRerank_perm
    (h : ∀ c ∈ cands, ∀ e, extents.find? (fun e => e.id = c.extentId) = some e → (e.blocks[c.addr.block.toNat]?).isSome) :
    ∃ hits, exactRerank lib extents q cands = .ok hits ∧ hits.Perm (cands.filterMap (resolve extents q)) := by
  set keys := ((cands.map fun c => (c.extentId, c.addr.block)).dedup).insertionSort keyLe with hkeys
  have hperm : keys.Perm (cands.map fun c => (c.extentId, c.addr.block)).dedup := perm_insertionSort _ _
  have hgroup : ∀ key ∈ keys, rerankBlock lib extents q cands key =
      .ok ((cands.filter fun c => (c.extentId, c.addr.block) = key).filterMap (resolve extents q)) := by
    intro key hkey
    obtain ⟨c, hc, rfl⟩ := mem_map.1 (mem_dedup.1 (hperm.subset hkey))
    have hresolve : ∀ c' ∈ cands.filter fun c' => (c'.extentId, c'.addr.block) = (c.extentId, c.addr.block),
        c'.extentId = c.extentId ∧ c'.addr.block = c.addr.block := by
      intro c' hc'
      simpa using (mem_filter.1 hc').2
    cases hfind : extents.find? fun e => e.id = c.extentId with
    | none =>
      simp only [rerankBlock, hfind]
      refine congrArg Except.ok (filterMap_eq_nil_iff.2 fun c' hc' => ?_).symm
      rw [resolve, (hresolve c' hc').1, hfind]
      rfl
    | some e =>
      obtain ⟨block, hblock⟩ := Option.isSome_iff_exists.1 (h c hc e hfind)
      simp only [rerankBlock, hfind, hblock]
      refine congrArg Except.ok (filterMap_congr fun c' hc' => ?_)
      rw [resolve, (hresolve c' hc').1, hfind, (hresolve c' hc').2]
      simp only [Option.bind_some, hblock]
  refine ⟨keys.flatMap fun key => (cands.filter fun c => (c.extentId, c.addr.block) = key).filterMap (resolve extents q),
    ?_, ?_⟩
  · have hmapM : keys.mapM (rerankBlock lib extents q cands) = .ok (keys.map fun key =>
        (cands.filter fun c => (c.extentId, c.addr.block) = key).filterMap (resolve extents q)) := by
      rw [Fallible.mapM_eq_ok_iff, forall₂_map_right_iff, forall₂_same]
      exact hgroup
    simp only [exactRerank, ← hkeys, hmapM, Except.bind, bind]
    rfl
  · rw [← filterMap_flatMap]
    refine List.Perm.filterMap _ (Rows.flatMap_filter_perm (hperm.nodup_iff.2 (nodup_dedup _)) fun c hc => ?_)
    exact hperm.symm.subset (mem_dedup.2 (mem_map_of_mem hc))

end Rerank

section Extents

variable {lib} {extents : List (Extent lib)} {q : Vec} {forceExact : Bool}

variable {e : Extent lib}

omit [LinearOrder D] [LinearOrder A] in
theorem scanExact_searched {bytes : Bytes} (hindex : e.index forceExact = some bytes) :
    scanExact lib q e.id (e.searched forceExact) =
      (vectorsOf e.blocks).filterMap fun row => if lib.short row.2 then none else hitOf lib e.id q row := by
  rw [Extent.searched, hindex, Option.isSome_some, if_pos rfl, scanExact, vectorsOf_filter, filterMap_filter]
  refine filterMap_congr fun row _ => ?_
  cases lib.short row.2 <;> rfl

omit [LinearOrder D] [LinearOrder A] in
theorem filterMap_resolve (hids : (extents.map Extent.id).Nodup) (he : e ∈ extents) {bytes : Bytes}
    (hindex : e.index forceExact = some bytes) {cands : List (ApproxCand A)}
    (hid : ∀ c ∈ cands, c.extentId = e.id)
    (hperm : (cands.map ApproxCand.addr).Perm ((extractRows lib e.blocks).map Prod.fst)) :
    (cands.filterMap (resolve extents q)).Perm (scanExact lib q e.id (e.searched forceExact)) := by
  have hfind : extents.find? (fun e' => e'.id = e.id) = some e :=
    Rows.find?_eq_some_of_unique he (by simp) fun e' he' hsame =>
      Rows.eq_of_key_eq hids he' he (by simpa using hsame)
  have hcands : cands.filterMap (resolve extents q) = (cands.map ApproxCand.addr).filterMap fun addr =>
      (e.blocks[addr.block.toNat]?).bind fun block => (block[addr.row.toNat]?).join.bind fun v =>
        hitOf lib e.id q (addr, v) := by
    rw [filterMap_map]
    refine filterMap_congr fun c hc => ?_
    rw [resolve, hid c hc, hfind]
    rfl
  rw [hcands, scanExact_searched hindex]
  refine (hperm.filterMap _).trans (.of_eq ?_)
  rw [extractRows, filterMap_map, filterMap_filterMap]
  refine filterMap_congr fun row hrow => ?_
  obtain ⟨block, hblock, hcell⟩ := get_of_mem_vectorsOf e.fewBlocks e.fewRows hrow
  cases lib.short row.2 with
  | true => rfl
  | false => simp [hblock, hcell]

omit [LinearOrder D] [LinearOrder A] in
theorem scanExact_of_ne {bytes : Bytes} (hindex : e.index forceExact = some bytes)
    (hq : q.length ≠ e.dim) : scanExact lib q e.id (e.searched forceExact) = [] := by
  rw [scanExact_searched hindex, filterMap_eq_nil_iff]
  intro row hrow
  cases hshort : lib.short row.2 with
  | true => rfl
  | false =>
    have hlength : q.length ≠ (l2Normalize lib row.2).length := by
      rw [l2Normalize, hshort, if_neg (by simp), lib.length_unit, e.widths row hrow]
      exact hq
    simp [hitOf, cosineDistanceVec, hlength]

omit [LinearOrder D] in
theorem scanExtent_eq {params : AnnParams} (h : Uncut lib params forceExact extents q)
    (he : e ∈ extents) :
    ∃ s, scanExtent lib params forceExact none q e = .ok s ∧ s.1.length = e.candidates forceExact q ∧
      (∀ c ∈ s.1, c.extentId = e.id ∧ (e.blocks[c.addr.block.toNat]?).isSome) ∧
      (s.1.filterMap (resolve extents q) ++ s.2).Perm (scanExact lib q e.id (e.searched forceExact)) := by
  cases hindex : e.index forceExact with
  | none =>
    refine ⟨([], scanExact lib q e.id e.blocks), by simp only [scanExtent, hindex]; rfl, ?_, nofun, ?_⟩
    · simp [Extent.candidates, hindex]
    · rw [Extent.searched, hindex]
      exact .refl _
  | some bytes =>
    have hbytes : e.sidecar = some bytes := by
      unfold Extent.index at hindex
      split at hindex
      · cases hindex
      · exact hindex
    obtain ⟨cands, hcands, hid, hperm⟩ := sidecarCands_eq params q e hbytes (h.probed e he bytes hindex)
    refine ⟨(cands, []), ?_, ?_, fun c hc => ⟨hid c hc, ?_⟩, ?_⟩
    · simp only [scanExtent, hindex, hcands, Except.bind, bind]
      rfl
    · have hlength := hperm.length_eq
      rw [length_map] at hlength
      rw [hlength, Extent.candidates, hindex]
      split_ifs <;> simp_all
    · have hmem := hperm.subset (mem_map_of_mem hc)
      split at hmem
      · obtain ⟨row, hrow, haddr⟩ := mem_map.1 hmem
        obtain ⟨row', hrow', hextract⟩ := mem_filterMap.1 hrow
        obtain ⟨block, hblock, -⟩ := get_of_mem_vectorsOf e.fewBlocks e.fewRows hrow'
        split at hextract
        · cases hextract
        · cases hextract
          rw [← haddr, hblock]
          rfl
      · cases hmem
    · rw [append_nil]
      by_cases hq : q.length = e.dim
      · rw [if_pos hq] at hperm
        exact filterMap_resolve h.ids he hindex hid hperm
      · rw [if_neg hq] at hperm
        rw [map_eq_nil_iff.1 hperm.eq_nil, scanExact_of_ne hindex hq]
        exact .refl _

omit [LinearOrder D] in
theorem scans_eq {params : AnnParams} (h : Uncut lib params forceExact extents q) {part : List (Extent lib)}
    (hpart : part ⊆ extents) : ∃ scans, part.mapM (scanExtent lib params forceExact none q) = .ok scans ∧
      (scans.flatMap Prod.fst).length = (part.map fun e => e.candidates forceExact q).sum ∧
      (∀ c ∈ scans.flatMap Prod.fst, ∃ e ∈ part, c.extentId = e.id ∧ (e.blocks[c.addr.block.toNat]?).isSome) ∧
      ((scans.flatMap Prod.fst).filterMap (resolve extents q) ++ scans.flatMap Prod.snd).Perm
        (part.flatMap fun e => scanExact lib q e.id (e.searched forceExact)) := by
  induction part with
  | nil => exact ⟨[], rfl, rfl, nofun, .refl _⟩
  | cons e part ih =>
    obtain ⟨s, hs, hlength, hfound, hperm⟩ := scanExtent_eq h (hpart mem_cons_self)
    obtain ⟨scans, hscans, hlengths, hfounds, hperms⟩ := ih fun _ hmem => hpart (mem_cons_of_mem _ hmem)
    refine ⟨s :: scans, ?_, ?_, ?_, ?_⟩
    · simp only [mapM_cons, hs, hscans, Except.bind, bind]
      rfl
    · rw [flatMap_cons, length_append, hlength, hlengths, map_cons, sum_cons]
    · intro c hc
      rcases mem_append.1 hc with hc | hc
      · exact ⟨e, mem_cons_self, hfound c hc⟩
      · obtain ⟨e', he', hc'⟩ := hfounds c hc
        exact ⟨e', mem_cons_of_mem _ he', hc'⟩
    · rw [flatMap_cons, flatMap_cons, filterMap_append, flatMap_cons]
      refine List.Perm.trans ?_ (hperm.append hperms)
      rw [append_assoc, append_assoc]
      refine List.Perm.append_left _ ?_
      rw [← append_assoc, ← append_assoc]
      exact perm_append_comm.append_right _

/-! ### The nearest rows -/

omit [LinearOrder A] in
theorem sortHits_eq_of_perm {hits hits' : List (Hit D)} (h : hits.Perm hits') : sortHits hits = sortHits hits' := by
  have htotal : Std.Total (hitLe : Hit D → Hit D → Prop) := ⟨fun a b => by
    unfold hitLe
    grind⟩
  have htrans : IsTrans (Hit D) hitLe := ⟨fun a b c => by
    unfold hitLe
    grind⟩
  refine List.Perm.eq_of_pairwise (fun a b _ _ hab hba => ?_) (pairwise_insertionSort hitLe hits)
    (pairwise_insertionSort hitLe hits')
    (((perm_insertionSort _ _).trans h).trans (perm_insertionSort _ _).symm)
  obtain ⟨id, ⟨block, row⟩, d⟩ := a
  obtain ⟨id', ⟨block', row'⟩, d'⟩ := b
  unfold hitLe at hab hba
  grind

omit [LinearOrder D] [LinearOrder A] in
theorem nodup_places (hids : (extents.map Extent.id).Nodup) :
    ((extents.flatMap fun e => scanExact lib q e.id (e.searched forceExact)).map fun hit =>
      (hit.extentId, hit.addr)).Nodup := by
  have hplaces (e : Extent lib) :
      ((scanExact lib q e.id (e.searched forceExact)).map fun hit => (hit.extentId, hit.addr)).Sublist
        (((vectorsOf e.blocks).map Prod.fst).map fun addr => (e.id, addr)) := by
    have hsearched : (vectorsOf (e.searched forceExact)).Sublist (vectorsOf e.blocks) := by
      unfold Extent.searched
      split
      · rw [vectorsOf_filter]
        exact filter_sublist
      · exact .refl _
    rw [map_map]
    refine (sublist_map_filterMap (fun row hit hhit => ?_) _).trans (hsearched.map _)
    obtain ⟨d, -, rfl⟩ := Option.map_eq_some_iff.1 hhit
    rfl
  rw [map_flatMap, nodup_flatMap]
  constructor
  · intro e _
    refine List.Nodup.sublist (hplaces e) ((nodup_addresses e.fewBlocks e.fewRows).map fun addr addr' heq => ?_)
    exact (Prod.mk.inj heq).2
  · refine (pairwise_map.1 hids).imp fun {e e'} hne place hplace hplace' => ?_
    obtain ⟨addr, -, rfl⟩ := mem_map.1 ((hplaces e).subset hplace)
    obtain ⟨addr', -, heq⟩ := mem_map.1 ((hplaces e').subset hplace')
    exact hne (Prod.mk.inj heq).1.symm

variable {params : AnnParams} {prefilter : Bool} {qvec : Vec}

theorem annTopk_eq (h : Uncut lib params (forceExactOf lib params prefilter extents) extents (l2Normalize lib qvec)) :
    annTopk lib params prefilter none extents qvec = .ok (exactTopk lib params.k qvec
      (extents.map fun e => (e.id, e.searched (forceExactOf lib params prefilter extents)))) := by
  obtain ⟨scans, hscans, hlength, hfound, hperm⟩ := scans_eq h (List.Subset.refl extents)
  set pool := truncatePool (scans.flatMap Prod.fst) (poolSize params) with hpool
  -- there is room for all candidates
  have hall : pool.Perm (scans.flatMap Prod.fst) := by
    rw [hpool, truncatePool, take_of_length_le]
    · exact perm_insertionSort _ _
    · rw [length_insertionSort, hlength]
      exact h.room
  obtain ⟨hits, hhits, hhitsPerm⟩ := @exactRerank_perm _ _ lib extents (l2Normalize lib qvec) pool fun c hc e hfind => by
    obtain ⟨e', he', hid, hblock⟩ := hfound c (hall.subset hc)
    have hsame : e.id = c.extentId := by simpa using find?_some hfind
    rwa [Rows.eq_of_key_eq h.ids (mem_of_find?_eq_some hfind) he' (hsame.trans hid)]
  simp only [annTopk, hscans, ← hpool, hhits, Except.bind, bind]
  refine congrArg (fun sorted => Except.ok (List.take params.k sorted)) (sortHits_eq_of_perm ?_)
  rw [flatMap_map]
  exact ((hhitsPerm.trans (hall.filterMap _)).append_right _).trans hperm

omit [LinearOrder A] in
theorem nodup_exactTopk (hids : (extents.map Extent.id).Nodup) :
    ((exactTopk lib params.k qvec (extents.map fun e => (e.id, e.searched forceExact))).map fun hit =>
      (hit.extentId, hit.addr)).Nodup := by
  refine List.Nodup.sublist ((take_sublist _ _).map _) ?_
  rw [sortHits, ((perm_insertionSort hitLe _).map _).nodup_iff, flatMap_map]
  exact nodup_places hids

end Extents

/-- **Nothing is lost where nothing is cut off**: the search returns what a comparison with all rows returns that can be
found, and no row twice. -/
theorem ann_topk_exact {params : AnnParams} {prefilter : Bool} {extents : List (Extent lib)} {qvec : Vec}
    (h : Uncut lib params (forceExactOf lib params prefilter extents) extents (l2Normalize lib qvec)) :
    ∃ hits, annTopk lib params prefilter none extents qvec = .ok hits ∧ hits = exactTopk lib params.k qvec
        (extents.map fun e => (e.id, e.searched (forceExactOf lib params prefilter extents))) ∧
      (hits.map fun hit => (hit.extentId, hit.addr)).Nodup :=
  ⟨_, annTopk_eq h, rfl, nodup_exactTopk h.ids⟩

/-! ### A vector that is not indexed -/

def positive : Lib ℕ ℕ :=
  { ops := noArithmetic
    rotations := ⟨fun dim => List.replicate dim [], fun _ => length_replicate⟩
    utf8Error := fun _ => ""
    -- the bits of `1e-12` and of `1.0`
    short := fun v => v.all fun x => x.bits ≤ 0x2B8CBCCC
    unit := fun v => v.map fun _ => ⟨0x3F800000⟩
    length_unit := fun _ => length_map _
    cosine := fun a b => if (a ++ b).any fun x => x.bits = 0 then none else some 0
    estimate := fun _ _ => 0
    sqL2 := fun _ _ => 0 }

/-- A row with `1.0`, and one with `1e-13`. -/
def twoRows : List (List (Option Vec)) := [[some [⟨0x3F800000⟩], some [⟨0x29E12E13⟩]]]

def twoRowsExtent (id : String) (indexed : Bool) : Extent positive :=
  { id
    dim := 1
    blocks := twoRows
    sidecar := if indexed then
        some (write (buildIndex positive.ops positive.rotations (extractRows positive twoRows) 1 none))
      else none
    fewBlocks := by decide
    fewRows := by decide
    indexable := by decide
    widths := by decide
    built := by
      intro bytes hbytes
      cases indexed with
      | false => cases hbytes
      | true =>
        cases hbytes
        exact ⟨by decide +kernel, _, rfl⟩ }

def widest : AnnParams := ⟨2, 2 ^ 32, 1, 0⟩

theorem effectiveNprobe_widest (header : Header) :
    header.nlist.toNat ≤ effectiveNprobe widest.nprobe header.nlist.toNat := by
  have hlt := header.nlist.toNat_lt
  simp only [effectiveNprobe, widest]
  split <;> omega

theorem ann_topk_exact_small :
    ∃ hits, annTopk positive widest false none [twoRowsExtent "a" true, twoRowsExtent "b" false] [⟨0x3F800000⟩] = .ok hits ∧
      hits = exactTopk positive 2 [⟨0x3F800000⟩] [("a", [[some [⟨0x3F800000⟩], none]]), ("b", twoRows)] ∧
      (hits.map fun hit => (hit.extentId, hit.addr)).Nodup :=
  ann_topk_exact positive ⟨by decide, fun _ _ _ _ header _ => effectiveNprobe_widest header, by decide +kernel⟩

/-- **A vector that is not indexed** is not found where a sidecar is asked, though it would be by comparing all rows. -/
theorem short_vector_lost : Uncut positive widest false [twoRowsExtent "a" true] [⟨0x3F800000⟩] ∧
      annTopk positive widest false none [twoRowsExtent "a" true] [⟨0x3F800000⟩] = .ok [⟨"a", ⟨0, 0⟩, 0⟩] ∧
      exactTopk positive widest.k [⟨0x3F800000⟩] [("a", twoRows)] = [⟨"a", ⟨0, 0⟩, 0⟩, ⟨"a", ⟨0, 1⟩, 0⟩] := by
  have huncut : Uncut positive widest false [twoRowsExtent "a" true] [⟨0x3F800000⟩] :=
    ⟨by decide, fun _ _ _ _ header _ => effectiveNprobe_widest header, by decide +kernel⟩
  refine ⟨huncut, ?_, by decide +kernel⟩
  rw [@annTopk_eq _ _ _ _ positive [twoRowsExtent "a" true] widest false [⟨0x3F800000⟩] huncut]
  exact congrArg Except.ok (by decide +kernel)

end AnnSearch
