/-
**The file of the global tree.**

The tree of centroids is written whole, and read whole: a header, the centroids, and the posting
lists, each with its count.
-/

import Mathlib.Data.List.Indexes
import Pensieve.IvfSidecar
import Pensieve.Rows

namespace TreeFile

open List
open Wire (Bytes leBytes leValue)
open Buffers
open GraphTopo (utf8 fromUTF8?_utf8)
open AnnTree (Uuid PartitionRef GlobalTree)
open IvfFile (F32 putF32 putU32 formatVersion)

/-! ### The format -/

inductive TreeError where
  | tooShort (need buffer : ℕ)
  | badMagic
  | unsupportedVersion (version : ℕ)
  | corrupt (message : String)
  deriving DecidableEq

/-- `KYGT`. -/
def magic : Bytes := [75, 89, 71, 84]

/-- `as_bytes` -/
def uuidBytes (id : Uuid) : Bytes := id.bytes.map fun b => UInt8.ofNat b.val

/-- `Uuid::from_slice` -/
def uuidOf? (bytes : Bytes) : Option Uuid :=
  if h : bytes.length = 16 then
    some ⟨bytes.map fun b => ⟨b.toNat, b.toNat_lt⟩, (length_map _).trans h⟩
  else none

def putRef (r : PartitionRef) : Bytes := uuidBytes r.extent ++ leBytes 4 r.partition

def putPosting (refs : List PartitionRef) : Bytes := leBytes 4 refs.length ++ refs.flatMap putRef

def modelBytes (t : GlobalTree F32) : Bytes := utf8 (String.ofList (t.modelId.getD []))

def putHeader (t : GlobalTree F32) : Bytes :=
  magic ++ (putU32 formatVersion ++ (leBytes 4 t.dim ++ ([UInt8.ofNat t.metric] ++
    (leBytes 4 t.centroids.length ++ (leBytes 4 (modelBytes t).length ++ modelBytes t)))))

def write (t : GlobalTree F32) : Bytes :=
  putHeader t ++ ((t.centroids.flatMap fun c => c.flatMap putF32) ++ (t.postings.flatMap putPosting ++ magic))

def rdU32 (buf : Bytes) (off : ℕ) : Outcome TreeError ℕ := do
  let stop ← add off 4
  let bytes ← getRange (.tooShort stop buf.length) buf off stop
  pure (leValue bytes)

/-- The model of a header whose model has `len` bytes; `utf8Error` is what the decoder of UTF-8 says. -/
def readModel (utf8Error : Bytes → String) (len : ℕ) (bytes : Bytes) : Outcome TreeError (Option (List Char)) :=
  if len = 0 then pure none
  else
    match String.fromUTF8? ⟨bytes.toArray⟩ with
    | some model => pure (some model.toList)
    | none => fail (.corrupt ("model_id not utf-8: " ++ utf8Error bytes))

def readCoordinate (buf : Bytes) (off : ℕ) : Outcome TreeError (F32 × ℕ) := do
  let bits ← rdU32 buf off
  let off ← add off 4
  pure (⟨.ofNat bits⟩, off)

/-- One reference; `uuidError` is what `Uuid::from_slice` says. -/
def readRef (uuidError : Bytes → String) (buf : Bytes) (off : ℕ) : Outcome TreeError (PartitionRef × ℕ) := do
  let stop ← add off 16
  let idSlice ← getRange (.tooShort stop buf.length) buf off stop
  match uuidOf? idSlice with
  | none => fail (.corrupt ("bad extent uuid: " ++ uuidError idSlice))
  | some extent => do
      let off ← add off 16
      let partition ← rdU32 buf off
      let off ← add off 4
      pure (⟨extent, partition⟩, off)

def readPosting (uuidError : Bytes → String) (buf : Bytes) (off : ℕ) : Outcome TreeError (List PartitionRef × ℕ) := do
  let count ← rdU32 buf off
  let off ← add off 4
  times count (readRef uuidError buf) off

def read (utf8Error uuidError : Bytes → String) (buf : Bytes) : Outcome TreeError (GlobalTree F32) :=
  if buf.length < 8 then fail (.tooShort 8 buf.length)
  else do
    let head ← slice buf 0 4
    if head ≠ magic then fail .badMagic
    else do
      let tail ← slice buf (buf.length - 4) buf.length
      if tail ≠ magic then fail .badMagic
      else do
        let version ← rdU32 buf 4
        if version ≠ formatVersion.toNat then fail (.unsupportedVersion version)
        else do
          let dim ← rdU32 buf 8
          let metric ← getRange (.tooShort 13 buf.length) buf 12 13
          let globalNlist ← rdU32 buf 13
          let modelLen ← rdU32 buf 17
          let modelEnd ← checkedAdd (.corrupt "model_id length overflow") 21 modelLen
          let bytes ← getRange (.tooShort modelEnd buf.length) buf 21 modelEnd
          let modelId ← readModel utf8Error modelLen bytes
          let centroids ← times globalNlist (times dim (readCoordinate buf)) modelEnd
          let postings ← times globalNlist (readPosting uuidError buf) centroids.2
          pure ⟨dim, (metric.headD 0).toNat, modelId, centroids.1, postings.1⟩

/-! ### What is written is read -/

/-- The tree is one: there is a list for every centroid, and centroids have their dimension. -/
structure Shaped {F : Type} (t : GlobalTree F) : Prop where
  postings : t.postings.length = t.centroids.length
  centroids : ∀ c ∈ t.centroids, c.length = t.dim

/-- The numbers of the tree fit: those that are bytes or have four of them, and the file is a buffer. -/
structure Fits (t : GlobalTree F32) : Prop extends Shaped t where
  dim : t.dim < 2 ^ 32
  metric : t.metric < 256
  nlist : t.centroids.length < 2 ^ 32
  model : (modelBytes t).length < 2 ^ 32
  named : t.modelId ≠ some []
  counts : ∀ refs ∈ t.postings, refs.length < 2 ^ 32
  partitions : ∀ refs ∈ t.postings, ∀ r ∈ refs, r.partition < 2 ^ 32
  size : (write t).length < 2 ^ 64

section RoundTrip

variable {utf8Error uuidError : Bytes → String} {buf : Bytes} {t : GlobalTree F32}

theorem rdU32_of_at {off n : ℕ} (h : At buf off (leBytes 4 n)) (hn : n < 2 ^ 32) (hoff : off + 4 < 2 ^ 64) :
    rdU32 buf off = .ok n := by
  have h₁ := add_of_lt (E := TreeError) hoff
  have h₂ := getRange_of_at h (TreeError.tooShort (off + 4) buf.length)
  rw [Wire.length_leBytes] at h₂
  simp only [rdU32, h₁, h₂, Except.bind, bind]
  rw [Wire.leValue_leBytes (by norm_num; omega)]
  rfl

theorem length_uuidBytes (id : Uuid) : (uuidBytes id).length = 16 := by
  rw [uuidBytes, length_map, id.length_eq]

theorem uuidOf?_uuidBytes (id : Uuid) : uuidOf? (uuidBytes id) = some id := by
  rw [uuidOf?, dif_pos (length_uuidBytes id)]
  refine congrArg some (AnnTree.Uuid.bytes_injective ?_)
  change (id.bytes.map fun b => UInt8.ofNat b.val).map (fun b => (⟨b.toNat, b.toNat_lt⟩ : Fin 256)) = id.bytes
  rw [map_map]
  refine map_id'' (fun b => ?_) _
  refine Fin.ext ?_
  change (UInt8.ofNat b).toNat = b
  rw [UInt8.toNat_ofNat', Nat.mod_eq_of_lt b.2]

theorem length_putRef (r : PartitionRef) : (putRef r).length = 20 := by
  rw [putRef, length_append, length_uuidBytes, Wire.length_leBytes]

theorem readRef_of_at {off : ℕ} {r : PartitionRef} (h : At buf off (putRef r)) (hr : r.partition < 2 ^ 32)
    (hbuf : buf.length < 2 ^ 64) : readRef uuidError buf off = .ok (r, off + (putRef r).length) := by
  have hle := h.le
  rw [length_putRef] at hle ⊢
  have hid := h.left
  have hpartition := h.right
  rw [length_uuidBytes] at hpartition
  have h₁ := add_of_lt (E := TreeError) (x := off) (y := 16) (by omega)
  have h₂ := getRange_of_at hid (TreeError.tooShort (off + 16) buf.length)
  rw [length_uuidBytes] at h₂
  have h₃ : rdU32 buf (off + 16) = .ok r.partition := rdU32_of_at hpartition hr (by omega)
  have h₄ := add_of_lt (E := TreeError) (x := off + 16) (y := 4) (by omega)
  simp only [readRef, h₁, h₂, uuidOf?_uuidBytes, h₃, h₄, Except.bind, bind]
  rfl

theorem readPosting_of_at {off : ℕ} {refs : List PartitionRef} (h : At buf off (putPosting refs))
    (hcount : refs.length < 2 ^ 32) (hrefs : ∀ r ∈ refs, r.partition < 2 ^ 32) (hbuf : buf.length < 2 ^ 64) :
    readPosting uuidError buf off = .ok (refs, off + (putPosting refs).length) := by
  have hle := h.le
  have hentries := h.right
  rw [Wire.length_leBytes] at hentries
  rw [putPosting, length_append, Wire.length_leBytes] at hle ⊢
  have h₁ : rdU32 buf off = .ok refs.length := rdU32_of_at h.left hcount (by omega)
  have h₂ := add_of_lt (E := TreeError) (x := off) (y := 4) (by omega)
  have h₃ := times_of_at (f := readRef uuidError buf)
    (fun r hr off' hat => readRef_of_at hat (hrefs r hr) hbuf) hentries
  simp only [readPosting, h₁, h₂, h₃, Except.bind, bind]
  rw [Nat.add_assoc]

theorem readCoordinate_of_at {off : ℕ} {v : F32} (h : At buf off (putF32 v)) (hbuf : buf.length < 2 ^ 64) :
    readCoordinate buf off = .ok (v, off + (putF32 v).length) := by
  have hle := h.le
  rw [IvfFile.length_putF32] at hle ⊢
  have h₁ : rdU32 buf off = .ok v.bits.toNat := rdU32_of_at h v.bits.toNat_lt (by omega)
  have h₂ := add_of_lt (E := TreeError) (x := off) (y := 4) (by omega)
  simp only [readCoordinate, h₁, h₂, UInt32.ofNat_toNat, Except.bind, bind]
  rfl

theorem readModel_modelBytes (h : t.modelId ≠ some []) :
    readModel utf8Error (modelBytes t).length (modelBytes t) = .ok t.modelId := by
  have hempty : utf8 (String.ofList []) = [] := rfl
  cases hmodel : t.modelId with
  | none =>
    have hbytes : modelBytes t = [] := by rw [modelBytes, hmodel, Option.getD_none, hempty]
    rw [hbytes, readModel, length_nil, if_pos rfl]
    rfl
  | some model =>
    have hbytes : modelBytes t = utf8 (String.ofList model) := by rw [modelBytes, hmodel, Option.getD_some]
    have hne : (utf8 (String.ofList model)).length ≠ 0 := by
      intro hzero
      have hnil := (length_eq_zero_iff.1 hzero).trans hempty.symm
      have hname : some (String.ofList model) = some (String.ofList []) :=
        (fromUTF8?_utf8 _).symm.trans (hnil ▸ fromUTF8?_utf8 _)
      exact h (hmodel.trans (congrArg some (String.ofList_injective (Option.some.inj hname))))
    rw [hbytes, readModel, if_neg hne, fromUTF8?_utf8]
    dsimp only
    rw [String.toList_ofList]
    rfl

theorem length_putHeader (t : GlobalTree F32) : (putHeader t).length = 21 + (modelBytes t).length := by
  simp only [putHeader, length_append, Wire.length_leBytes, IvfFile.length_putU32, length_singleton]
  change 4 + _ = _
  omega

theorem read_of_parts (hmetric : t.metric < 256) (hmodel : (modelBytes t).length < 2 ^ 32)
    (hnamed : t.modelId ≠ some []) (hdim : t.dim < 2 ^ 32) (hnlist : t.centroids.length < 2 ^ 32)
    (hsize : (write t).length < 2 ^ 64) {postings : List (List PartitionRef) × ℕ}
    (hcentroids : ∀ c ∈ t.centroids, c.length = t.dim)
    (hpostings : times t.centroids.length (readPosting uuidError (write t))
      ((putHeader t).length + (t.centroids.flatMap fun c => c.flatMap putF32).length) = .ok postings) :
    read utf8Error uuidError (write t) = .ok ⟨t.dim, t.metric, t.modelId, t.centroids, postings.1⟩ := by
  have hheader : At (write t) 0 (putHeader t) := (at_self (write t)).left
  have hpoints := (at_self (write t)).right.left
  have hend := (at_self (write t)).right.right.right
  have hle := hheader.le
  have hlast := hend.le
  have hmagic : magic.length = 4 := rfl
  rw [Nat.zero_add] at hpoints hend hlast
  rw [hmagic] at hlast
  rw [length_putHeader] at hle
  have htotal : (write t).length = (putHeader t).length +
      (t.centroids.flatMap fun c => c.flatMap putF32).length + (t.postings.flatMap putPosting).length + 4 := by
    rw [write, length_append, length_append, length_append, hmagic]
    omega
  have hversion := hheader.right
  have hdimAt := hversion.right
  have hmetricAt := hdimAt.right
  have hnlistAt := hmetricAt.right
  have hlenAt := hnlistAt.right
  have hnameAt := hlenAt.right
  rw [IvfFile.length_putU32] at hdimAt hmetricAt hnlistAt hlenAt hnameAt
  rw [Wire.length_leBytes] at hmetricAt hnlistAt hlenAt hnameAt
  rw [Wire.length_leBytes] at hlenAt hnameAt
  rw [Wire.length_leBytes] at hnameAt
  have h₀ : (slice (write t) 0 4 : Outcome TreeError Bytes) = .ok magic := slice_of_at hheader.left
  have h₁ : (slice (write t) ((write t).length - 4) (write t).length : Outcome TreeError Bytes) = .ok magic := by
    have hslice := slice_of_at (E := TreeError) hend
    rwa [hmagic, ← htotal, show (putHeader t).length + (t.centroids.flatMap fun c => c.flatMap putF32).length +
      (t.postings.flatMap putPosting).length = (write t).length - 4 by omega] at hslice
  have h₂ : rdU32 (write t) 4 = .ok formatVersion.toNat := rdU32_of_at hversion.left (by decide) (by norm_num)
  have h₃ : rdU32 (write t) 8 = .ok t.dim := rdU32_of_at hdimAt.left hdim (by norm_num)
  have h₄ : getRange (TreeError.tooShort 13 (write t).length) (write t) 12 13 = .ok [UInt8.ofNat t.metric] :=
    getRange_of_at hmetricAt.left _
  have h₅ : rdU32 (write t) 13 = .ok t.centroids.length := rdU32_of_at hnlistAt.left hnlist (by norm_num)
  have h₆ : rdU32 (write t) 17 = .ok (modelBytes t).length := rdU32_of_at hlenAt.left hmodel (by norm_num)
  have h₇ := checkedAdd_of_lt (x := 21) (y := (modelBytes t).length) (by omega)
    (TreeError.corrupt "model_id length overflow")
  have h₈ : getRange (TreeError.tooShort (21 + (modelBytes t).length) (write t).length) (write t) 21
      (21 + (modelBytes t).length) = .ok (modelBytes t) := getRange_of_at hnameAt _
  have h₉ : readModel utf8Error (modelBytes t).length (modelBytes t) = .ok t.modelId := readModel_modelBytes hnamed
  -- the centroids begin where the header ends, and the lists where they end
  have hrow : ∀ c ∈ t.centroids, ∀ off, At (write t) off (c.flatMap putF32) →
      times t.dim (readCoordinate (write t)) off = .ok (c, off + (c.flatMap putF32).length) := by
    intro c hc off hat
    rw [← hcentroids c hc]
    exact times_of_at (fun v _ off' hat' => readCoordinate_of_at hat' hsize) hat
  have hpointsRead := times_of_at hrow hpoints
  rw [length_putHeader] at hpointsRead hpostings
  have hshort : ¬ (write t).length < 8 := by omega
  have hbyte : (UInt8.ofNat t.metric).toNat = t.metric := by
    rw [UInt8.toNat_ofNat', Nat.mod_eq_of_lt hmetric]
  simp only [read, if_neg hshort, h₀, h₁, h₂, h₃, h₄, h₅, h₆, h₇, h₈, h₉, hpointsRead, hpostings, Except.bind,
    bind, ne_eq, not_true_eq_false, if_false, headD_cons, hbyte]
  rfl

theorem read_write (h : Fits t) : read utf8Error uuidError (write t) = .ok t := by
  have hsize := h.size
  have hlists : At (write t) ((putHeader t).length + (t.centroids.flatMap fun c => c.flatMap putF32).length)
      (t.postings.flatMap putPosting) := by
    have hat := (at_self (write t)).right.right.left
    rwa [Nat.zero_add] at hat
  have hread := times_of_at (f := readPosting uuidError (write t))
    (fun refs hrefs off hat => readPosting_of_at hat (h.counts refs hrefs) (h.partitions refs hrefs) hsize) hlists
  rw [h.postings] at hread
  exact read_of_parts h.metric h.model h.named h.dim h.nlist hsize h.centroids hread

end RoundTrip

section Building

variable {F : Type}

/-- The number of a partition, `as u32`. -/
def cutRef (r : PartitionRef) : PartitionRef := ⟨r.extent, r.partition % 2 ^ 32⟩

/-- **`build`**, whose references have their numbers in 32 bits. -/
def build (ops : Kmeans.Ops F) (dim metric : ℕ) (modelId : Option (List Char))
    (extentCentroids : List (Uuid × List (List F))) (globalNlist : ℕ) : Option (GlobalTree F) :=
  (AnnTree.build ops.toArith (Kmeans.trainer ops) dim metric modelId extentCentroids globalNlist).map fun t =>
    { t with postings := t.postings.map fun refs => refs.map cutRef }

def references (dim : ℕ) (extentCentroids : List (Uuid × List (List F))) : List PartitionRef :=
  (AnnTree.routedPoints dim extentCentroids).map fun p => cutRef p.1

variable {ops : Kmeans.Ops F} {dim metric globalNlist : ℕ} {modelId : Option (List Char)}
  {extentCentroids : List (Uuid × List (List F))} {t : GlobalTree F}

theorem build_eq_none_iff :
    build ops dim metric modelId extentCentroids globalNlist = none ↔ references dim extentCentroids = [] := by
  rw [build, Option.map_eq_none_iff, references, map_eq_nil_iff, AnnTree.build]
  dsimp only
  split <;> simp_all

theorem flatten_lists_perm {α : Type} {assigned : List (α × ℕ)} {n : ℕ} (h : ∀ a ∈ assigned, a.2 < n) :
    ((List.range n).map fun g => (assigned.filter fun a => a.2 = g).map Prod.fst).flatten.Perm
      (assigned.map Prod.fst) := by
  rw [← flatMap_def, ← map_flatMap]
  exact (Rows.flatMap_filter_perm nodup_range fun a ha => mem_range.2 (h a ha)).map Prod.fst

theorem flatten_postings (h : build ops dim metric modelId extentCentroids globalNlist = some t) :
    t.postings.flatten.Perm (references dim extentCentroids) := by
  obtain ⟨t', ht', rfl⟩ := Option.map_eq_some_iff.1 h
  unfold AnnTree.build at ht'
  dsimp only at ht'
  split at ht'
  · cases ht'
  · cases ht'
    dsimp only
    rw [← map_flatten, references, show (fun p : PartitionRef × List F => cutRef p.1) =
      cutRef ∘ Prod.fst from rfl, ← map_map]
    refine List.Perm.map cutRef ((flatten_lists_perm fun a ha => ?_).trans (.of_eq ?_))
    · exact Kmeans.assignments_lt ops _ _ _ (of_mem_zip ha).2
    · exact map_fst_zip (by simp [AnnTree.cluster])

theorem ofDim_routedPoints (dim : ℕ) (extentCentroids : List (Uuid × List (List F))) :
    ∀ v ∈ (AnnTree.routedPoints dim extentCentroids).map Prod.snd, v.length = dim := by
  intro v hv
  obtain ⟨p, hp, rfl⟩ := mem_map.1 hv
  obtain ⟨e, -, hmem⟩ := mem_flatMap.1 hp
  exact of_decide_eq_true (mem_filter.1 hmem).2

theorem shaped_build (h : build ops dim metric modelId extentCentroids globalNlist = some t) :
    Shaped t ∧ t.dim = dim := by
  obtain ⟨t', ht', rfl⟩ := Option.map_eq_some_iff.1 h
  unfold AnnTree.build at ht'
  dsimp only at ht'
  split at ht'
  · cases ht'
  · rename_i hne
    cases ht'
    refine ⟨⟨by simp, ?_⟩, rfl⟩
    refine Kmeans.length_of_mem_train ops _ (ofDim_routedPoints dim extentCentroids) ?_
    rw [length_map]
    exact length_pos_iff.2 hne

theorem extent_of_mem {e : Uuid × List (List F)} {r : PartitionRef}
    (hr : r ∈ ((e.2.mapIdx fun i c => ((⟨e.1, i⟩ : PartitionRef), c)).filter fun p => p.2.length = dim).map
      fun p => cutRef p.1) : r.extent = e.1 := by
  obtain ⟨p, hp, rfl⟩ := mem_map.1 hr
  obtain ⟨i, hi, rfl⟩ := mem_mapIdx.1 (mem_filter.1 hp).1
  rfl

theorem nodup_references (hids : (extentCentroids.map Prod.fst).Nodup)
    (hlen : ∀ e ∈ extentCentroids, e.2.length ≤ 2 ^ 32) : (references dim extentCentroids).Nodup := by
  rw [references, AnnTree.routedPoints, map_flatMap, nodup_flatMap]
  constructor
  · rintro ⟨id, centroids⟩ he
    refine List.Nodup.sublist (filter_sublist.map _) ?_
    rw [mapIdx_eq_ofFn, map_ofFn]
    refine nodup_ofFn.2 fun i j hij => Fin.ext ?_
    have hcut := (PartitionRef.mk.inj hij).2
    have hbound := hlen _ he
    have hi := i.2
    have hj := j.2
    dsimp only at hcut hbound
    rwa [Nat.mod_eq_of_lt (by omega), Nat.mod_eq_of_lt (by omega)] at hcut
  · refine (pairwise_map.1 hids).imp fun {e e'} hne => ?_
    rw [Function.onFun, disjoint_left]
    intro r hr hr'
    exact hne ((extent_of_mem hr).symm.trans (extent_of_mem hr'))

theorem existsUnique_list {α : Type} {lists : List (List α)} (hnodup : lists.flatten.Nodup) {a : α}
    (ha : a ∈ lists.flatten) : ∃! g : ℕ, ∃ l, lists[g]? = some l ∧ a ∈ l := by
  obtain ⟨l, hl, hal⟩ := mem_flatten.1 ha
  obtain ⟨g, hg⟩ := mem_iff_getElem?.1 hl
  refine ⟨g, ⟨l, hg, hal⟩, ?_⟩
  rintro g' ⟨l', hg', hal'⟩
  have hdisjoint := pairwise_iff_getElem.1 (nodup_flatten.1 hnodup).2
  obtain ⟨hlt, rfl⟩ := List.getElem?_eq_some_iff.1 hg
  obtain ⟨hlt', rfl⟩ := List.getElem?_eq_some_iff.1 hg'
  rcases Nat.lt_trichotomy g g' with hless | heq | hless
  · exact absurd hal' (disjoint_left.1 (hdisjoint g g' hlt hlt' hless) hal)
  · exact heq.symm
  · exact absurd hal (disjoint_left.1 (hdisjoint g' g hlt' hlt hless) hal')

end Building

section Selection

variable {F : Type} {ops : AnnTree.Arith F} {t : GlobalTree F} {q : List F} {topP : ℕ}

theorem nodup_foldl_pushNew {refs out : List PartitionRef} (h : out.Nodup) :
    (refs.foldl AnnTree.pushNew out).Nodup := by
  induction refs generalizing out with
  | nil => exact h
  | cons r refs ih =>
    refine ih ?_
    unfold AnnTree.pushNew
    split
    · exact h
    · rename_i hr
      exact nodup_append.2 ⟨h, nodup_singleton r, fun a ha b hb => by
        rw [mem_singleton.1 hb]
        exact fun heq => hr (heq ▸ ha)⟩

theorem nodup_selectPartitions : (AnnTree.selectPartitions ops t q topP).Nodup := by
  unfold AnnTree.selectPartitions
  split
  · exact nodup_nil
  · exact nodup_foldl_pushNew nodup_nil

theorem mem_of_mem_selectPartitions {r : PartitionRef} (h : r ∈ AnnTree.selectPartitions ops t q topP) :
    r ∈ t.postings.flatten := by
  unfold AnnTree.selectPartitions at h
  split at h
  · cases h
  · rcases AnnTree.mem_foldl_pushNew.1 h with hnil | hmem
    · cases hnil
    · obtain ⟨e, -, hr⟩ := mem_flatMap.1 hmem
      cases hrefs : t.postings[e.1]? with
      | none =>
        rw [hrefs] at hr
        cases hr
      | some refs =>
        rw [hrefs] at hr
        exact mem_flatten.2 ⟨refs, mem_of_getElem? hrefs, hr⟩

end Selection

/-! ### Trees that are read -/

/-- **The round trip and coverage.**  A tree that fits is read as it was written.  What is built is a tree in
which every reference whose centroid has the dimension is under one centroid, and nothing is built if there is
none.  Selecting takes no reference twice and none that is not in the tree, and with a budget for all
centroids, for a query that has the dimension, it takes all. -/
theorem tree_exact (utf8Error uuidError : Bytes → String) (ops : Kmeans.Ops F32) :
    (∀ t, Fits t → read utf8Error uuidError (write t) = .ok t) ∧ (∀ dim metric modelId extentCentroids globalNlist,
      (build ops dim metric modelId extentCentroids globalNlist = none ↔ references dim extentCentroids = []) ∧
      ∀ t, build ops dim metric modelId extentCentroids globalNlist = some t →
        (Shaped t ∧ t.dim = dim) ∧ t.postings.flatten.Perm (references dim extentCentroids) ∧
        ((extentCentroids.map Prod.fst).Nodup → (∀ e ∈ extentCentroids, e.2.length ≤ 2 ^ 32) →
          ∀ r ∈ references dim extentCentroids, ∃! g : ℕ, ∃ refs, t.postings[g]? = some refs ∧ r ∈ refs)) ∧
    ∀ t : GlobalTree F32, Shaped t → ∀ q topP, (AnnTree.selectPartitions ops.toArith t q topP).Nodup ∧
      (∀ r ∈ AnnTree.selectPartitions ops.toArith t q topP, r ∈ t.postings.flatten) ∧
      (q.length = t.dim → t.centroids.length ≤ topP →
        ∀ r ∈ t.postings.flatten, r ∈ AnnTree.selectPartitions ops.toArith t q topP) := by
  refine ⟨fun t hfits => read_write hfits, fun dim metric modelId extentCentroids globalNlist =>
    ⟨build_eq_none_iff, fun t h => ⟨shaped_build h, flatten_postings h, fun hids hlen r hr => ?_⟩⟩,
    fun t hshaped q topP => ⟨nodup_selectPartitions, fun r hr => mem_of_mem_selectPartitions hr,
      fun hq hbudget r hr => ?_⟩⟩
  · have hperm := flatten_postings h
    exact existsUnique_list (hperm.nodup_iff.2 (nodup_references hids hlen)) (hperm.mem_iff.2 hr)
  · obtain ⟨refs, hrefs, hr⟩ := mem_flatten.1 hr
    exact AnnTree.mem_selectPartitions hshaped.postings hq hbudget hrefs hr

def nilId : Uuid := ⟨List.replicate 16 ⟨0, Nat.zero_lt_succ 255⟩, rfl⟩

def smallTree : GlobalTree F32 := ⟨1, 0, some ['m'], [[⟨2⟩]], [[⟨nilId, 3⟩]]⟩

theorem fits_smallTree : Fits smallTree := by
  refine ⟨?_, by decide, by decide, by decide, by decide, by decide, by decide, by decide, by decide⟩
  constructor <;> decide

theorem tree_exact_small : read (fun _ => "") (fun _ => "") (write smallTree) = .ok smallTree ∧
      ⟨nilId, 3⟩ ∈ AnnTree.selectPartitions IvfFile.noArithmetic.toArith smallTree [⟨5⟩] 1 :=
  have h := tree_exact (fun _ => "") (fun _ => "") IvfFile.noArithmetic.toOps
  ⟨h.1 _ fits_smallTree, (h.2.2 _ fits_smallTree.toShaped [⟨5⟩] 1).2.2 rfl (by decide) _ (mem_singleton_self _)⟩

/-! ### What the tree does not have, and what its file does not say -/

/-- One list of `n` references. -/
def longPosting (n : ℕ) : List PartitionRef := List.replicate n ⟨nilId, 0⟩

def longTree (n : ℕ) : GlobalTree F32 := ⟨0, 0, none, [[]], [longPosting n]⟩

theorem length_flatMap_putRef (refs : List PartitionRef) : (refs.flatMap putRef).length = refs.length * 20 := by
  induction refs with
  | nil => rfl
  | cons r refs ih =>
    rw [flatMap_cons, length_append, length_putRef, ih, length_cons]
    omega

theorem not_read_of_mod {n : ℕ} (hpos : 0 < n) (hlt : n < 2 ^ 33) (hmod : n % 2 ^ 32 = 0)
    (utf8Error uuidError : Bytes → String) : read utf8Error uuidError (write (longTree n)) ≠ .ok (longTree n) := by
  have hlists : ((longTree n).postings.flatMap putPosting).length = 4 + n * 20 := by
    change ([longPosting n].flatMap putPosting).length = _
    rw [flatMap_singleton, putPosting, length_append, Wire.length_leBytes, length_flatMap_putRef,
      longPosting, length_replicate]
  have hsize : (write (longTree n)).length < 2 ^ 64 := by
    rw [write, length_append, length_append, length_append, hlists]
    change 21 + (0 + (4 + n * 20 + 4)) < _
    norm_num at hlt ⊢
    omega
  have hat : At (write (longTree n)) 21 (leBytes 4 (longPosting n).length) := by
    have h := (at_self (write (longTree n))).right.right.left.left.left
    exact h
  -- the count that is read is that of an empty list
  rw [← leBytes_mod, longPosting, length_replicate, show 256 ^ 4 = 2 ^ 32 by norm_num, hmod] at hat
  have h₁ : rdU32 (write (longTree n)) 21 = .ok 0 := rdU32_of_at hat (by norm_num) (by norm_num)
  have h₂ : readPosting uuidError (write (longTree n)) 21 = .ok ([], 25) := by
    simp only [readPosting, h₁, add_of_lt (E := TreeError) (x := 21) (y := 4) (by norm_num), Except.bind, bind]
    rfl
  have h₃ : times 1 (readPosting uuidError (write (longTree n))) 21 = .ok ([[]], 25) := by
    simp only [times, h₂, Except.bind, bind]
    rfl
  have hread := @read_of_parts utf8Error uuidError (longTree n) (by decide : 0 < 256) (Nat.pow_pos (by norm_num))
    (fun hnone => by cases hnone) (Nat.pow_pos (by norm_num)) (by change 1 < _; norm_num) hsize _
    (fun c hc => by rw [mem_singleton.1 hc]; rfl) h₃
  intro h
  have hnil := congrArg GlobalTree.postings (Except.ok.inj (hread.symm.trans h))
  have hlength := congrArg List.length (List.cons.inj hnil).1
  rw [length_nil, longPosting, length_replicate] at hlength
  omega

/-- **What is not covered**: nothing is selected for a query of another dimension, a centroid of another
dimension is left out, and of a list of `2 ^ 32` references none is read. -/
theorem tree_not_read : (smallTree.centroids.length ≤ 1 ∧ ⟨nilId, 3⟩ ∈ smallTree.postings.flatten ∧
      ⟨nilId, 3⟩ ∉ AnnTree.selectPartitions IvfFile.noArithmetic.toArith smallTree [] 1) ∧
    (∃ t, build IvfFile.noArithmetic.toOps 1 0 none [(nilId, [[⟨0⟩], []])] 1 = some t ∧
      ⟨nilId, 1⟩ ∉ t.postings.flatten) ∧
    read (fun _ => "") (fun _ => "") (write (longTree (2 ^ 32))) ≠ .ok (longTree (2 ^ 32)) := by
  refine ⟨⟨le_rfl, mem_singleton_self _, ?_⟩, ?_, not_read_of_mod (by norm_num) (by norm_num) (by norm_num) _ _⟩
  · change _ ∉ ([] : List PartitionRef)
    exact not_mem_nil
  · cases hbuild : build IvfFile.noArithmetic.toOps 1 0 none [(nilId, [[⟨0⟩], []])] 1 with
    | none => cases build_eq_none_iff.1 hbuild
    | some t =>
      refine ⟨t, rfl, fun hmem => ?_⟩
      have hreference := (flatten_postings hbuild).mem_iff.1 hmem
      change _ ∈ [(⟨nilId, 0⟩ : PartitionRef)] at hreference
      cases mem_singleton.1 hreference

end TreeFile
