/-
**The sidecar of vectors.**

A vector index is a header, the centroids, a list of entries for every centroid, and a directory
that says where each of these lists is.
-/

import Pensieve.Buffers
import Pensieve.GraphSidecar
import Pensieve.KMeans

namespace IvfFile

open List
open Wire (Bytes leBytes)
open Buffers
open GraphTopo (utf8 fromUTF8?_utf8)

/-! ### The data -/

inductive SidecarError where
  | tooShort (need buffer : ℕ)
  | badMagic
  | unsupportedVersion (version : ℕ)
  | corrupt (message : String)
  | partitionOutOfRange (idx nlist : ℕ)
  deriving DecidableEq

/-- An `f32`, by its bits. -/
structure F32 where
  bits : UInt32
  deriving DecidableEq

structure RowAddress where
  block : UInt32
  row : UInt32
  deriving DecidableEq

structure VectorCode where
  code : Bytes
  correction : F32
  deriving DecidableEq

structure Entry where
  addr : RowAddress
  code : VectorCode
  deriving DecidableEq

structure Header where
  version : UInt32
  dim : UInt32
  metric : UInt8
  nlist : UInt32
  modelId : Option String
  centroidsOffset : ℕ
  deriving DecidableEq

/-- `KYIV`. -/
def magic : Bytes := [75, 89, 73, 86]

def formatVersion : UInt32 := 1

def metricCosine : UInt8 := 0

/-- `dim.div_ceil(8)` -/
def codeLen (dim : ℕ) : ℕ := (dim + 7) / 8

/-! ### The writer -/

def putU32 (x : UInt32) : Bytes := leBytes 4 x.toNat

def putF32 (x : F32) : Bytes := putU32 x.bits

def putEntry (e : Entry) : Bytes :=
  putU32 e.addr.block ++ (putU32 e.addr.row ++ (e.code.code ++ putF32 e.code.correction))

def putPartition (part : List Entry) : Bytes := leBytes 4 part.length ++ part.flatMap putEntry

/-- Where the lists are, from `start` on, and how long each is. -/
def directoryFrom : ℕ → List (List Entry) → List (ℕ × ℕ)
  | _, [] => []
  | start, part :: partitions =>
    (start, (putPartition part).length) :: directoryFrom (start + (putPartition part).length) partitions

def putSlot (slot : ℕ × ℕ) : Bytes := leBytes 8 slot.1 ++ leBytes 8 slot.2

/-- What `write` takes. -/
structure VectorIndex where
  dim : ℕ
  metric : UInt8
  centroids : List (List F32)
  partitions : List (List Entry)
  modelId : Option String
  deriving DecidableEq

def modelBytes (x : VectorIndex) : Bytes := utf8 (x.modelId.getD "")

def putHeader (x : VectorIndex) : Bytes :=
  magic ++ (putU32 formatVersion ++ (leBytes 4 x.dim ++ ([x.metric] ++ (leBytes 4 x.centroids.length ++
    (leBytes 4 (modelBytes x).length ++ modelBytes x)))))

def putFront (x : VectorIndex) : Bytes := putHeader x ++ x.centroids.flatMap fun c => c.flatMap putF32

def putBody (x : VectorIndex) : Bytes := putFront x ++ x.partitions.flatMap putPartition

def directory (x : VectorIndex) : List (ℕ × ℕ) := directoryFrom (putFront x).length x.partitions

/-- **The file**, for as many lists as there are centroids. -/
def write (x : VectorIndex) : Bytes :=
  putBody x ++ ((directory x).flatMap putSlot ++ (leBytes 8 (putBody x).length ++ magic))

/-! ### The reader -/

def errors : Errors SidecarError := ⟨.tooShort, .corrupt "offset overflow"⟩

def rdU32 (buf : Bytes) (off : ℕ) : Outcome SidecarError UInt32 := do
  let v ← rdLe errors 4 buf off
  pure (.ofNat v)

def rdU64 (buf : Bytes) (off : ℕ) : Outcome SidecarError ℕ := rdLe errors 8 buf off

def rdF32 (buf : Bytes) (off : ℕ) : Outcome SidecarError F32 := do
  let bits ← rdU32 buf off
  pure ⟨bits⟩

/-- The model of a header whose model has `len` bytes; `utf8Error` is what the decoder of UTF-8 says. -/
def readModel (utf8Error : Bytes → String) (len : ℕ) (bytes : Bytes) : Outcome SidecarError (Option String) :=
  if len = 0 then pure none
  else
    match String.fromUTF8? ⟨bytes.toArray⟩ with
    | some model => pure (some model)
    | none => fail (.corrupt ("model_id not utf-8: " ++ utf8Error bytes))

def readHeader (utf8Error : Bytes → String) (buf : Bytes) : Outcome SidecarError Header :=
  if buf.length < 4 then fail (.tooShort 4 buf.length)
  else do
    let head ← slice buf 0 4
    if head ≠ magic then fail .badMagic
    else do
      let version ← rdU32 buf 4
      if version ≠ formatVersion then fail (.unsupportedVersion version.toNat)
      else do
        let dim ← rdU32 buf 8
        let metric ← getRange (.tooShort 13 buf.length) buf 12 13
        let nlist ← rdU32 buf 13
        let modelLen ← rdU32 buf 17
        let modelEnd ← checkedAdd (.corrupt "model_id length overflow") 21 modelLen.toNat
        let bytes ← getRange (.tooShort modelEnd buf.length) buf 21 modelEnd
        let modelId ← readModel utf8Error modelLen.toNat bytes
        pure ⟨version, dim, metric.headD 0, nlist, modelId, modelEnd⟩

def readCoordinate (buf : Bytes) (off : ℕ) : Outcome SidecarError (F32 × ℕ) := do
  let x ← rdF32 buf off
  let off ← add off 4
  pure (x, off)

def readCentroids (buf : Bytes) (header : Header) : Outcome SidecarError (List (List F32)) := do
  let centroids ← times header.nlist.toNat (times header.dim.toNat (readCoordinate buf))
    header.centroidsOffset
  pure centroids.1

def readFooterDirectory (buf : Bytes) (nlist : ℕ) : Outcome SidecarError ℕ :=
  if buf.length < 12 then fail (.tooShort 12 buf.length)
  else do
    let tail ← slice buf (buf.length - 4) buf.length
    if tail ≠ magic then fail .badMagic
    else do
      let footerOffset ← rdU64 buf (buf.length - 12)
      if 2 ^ 64 ≤ nlist * 16 then fail (.corrupt "directory size overflow")
      else do
        let dirEnd ← checkedAdd (.corrupt "directory end overflow") footerOffset (nlist * 16)
        if dirEnd ≠ buf.length - 12 then
          fail (.corrupt ("footer directory bounds mismatch: dir_end=" ++ toString dirEnd ++
            ", expected " ++ toString (buf.length - 12)))
        else pure footerOffset

/-- One entry of a list that ends at `stop`. -/
def readEntry (buf : Bytes) (stop clen off : ℕ) : Outcome SidecarError (Entry × ℕ) := do
  let needed ← checkedAdd (.corrupt "entry offset overflow") off (4 + 4 + clen + 4)
  if needed > stop then
    fail (.corrupt ("partition entry runs past its declared length (need " ++ toString needed ++
      ", end " ++ toString stop ++ ")"))
  else do
    let block ← rdU32 buf off
    let rowOff ← add off 4
    let row ← rdU32 buf rowOff
    let codeOff ← add off 8
    let codeEnd ← add codeOff clen
    let code ← slice buf codeOff codeEnd
    let correction ← rdF32 buf codeEnd
    pure (⟨⟨block, row⟩, ⟨code, correction⟩⟩, needed)

def decodePartition (buf : Bytes) (start stop dim : ℕ) : Outcome SidecarError (List Entry) := do
  let count ← rdU32 buf start
  let off ← add start 4
  let entries ← times count.toNat (readEntry buf stop (codeLen dim)) off
  pure entries.1

def readPartition (buf : Bytes) (header : Header) (idx : ℕ) : Outcome SidecarError (List Entry) :=
  if header.nlist.toNat ≤ idx then fail (.partitionOutOfRange idx header.nlist.toNat)
  else do
    let footerOffset ← readFooterDirectory buf header.nlist.toNat
    let skip ← mul idx 16
    let dirEntryOff ← add footerOffset skip
    let partOff ← rdU64 buf dirEntryOff
    let lenOff ← add dirEntryOff 8
    let partLen ← rdU64 buf lenOff
    let partEnd ← checkedAdd (.corrupt "partition end overflow") partOff partLen
    if partEnd > buf.length then fail (.tooShort partEnd buf.length)
    else decodePartition buf partOff partEnd header.dim.toNat

/-! ### The builder -/

/-- What a code takes of the arithmetic of `f32`, besides clustering. -/
structure QuantOps extends Kmeans.Ops F32 where
  le : F32 → F32 → Bool
  abs : F32 → F32
  sqrt : F32 → F32
  /-- `1e-12` -/
  tiny : F32

/-- The rows of the rotation of each dimension, whatever the generator made them. -/
structure Rotations where
  mat : ℕ → List (List F32)
  length_mat : ∀ dim, (mat dim).length = dim

section Builder

variable (ops : QuantOps)

def applyRotation (mat : List (List F32)) (v : List F32) : List F32 :=
  mat.map fun row => (row.zip v).foldl (fun acc p => ops.add acc (ops.mul p.1 p.2)) ops.zero

def packSigns (rotated : List F32) : Bytes :=
  rotated.zipIdx.foldl (fun code p =>
      if ops.le ops.zero p.1 then code.modify (p.2 / 8) (· ||| (1 <<< UInt8.ofNat (p.2 % 8))) else code)
    (List.replicate (codeLen rotated.length) 0)

def encodeRotated (rotated : List F32) : VectorCode :=
  let absSum := (rotated.map ops.abs).foldl ops.add ops.zero
  let dot := ops.div absSum (ops.sqrt (ops.ofNat rotated.length))
  ⟨packSigns ops rotated, if ops.lt ops.tiny dot then ops.div ops.one dot else ops.zero⟩

def entryOf (rotations : Rotations) (dim : ℕ) (row : RowAddress × List F32) : Entry :=
  ⟨row.1, encodeRotated ops (applyRotation ops (rotations.mat dim) row.2)⟩

structure BuildParams where
  nlist : ℕ
  bits : ℕ
  dim : ℕ
  metric : String
  rabitqVersion : ℕ
  deriving DecidableEq

def buildIndex (rotations : Rotations) (rows : List (RowAddress × List F32)) (dim : ℕ)
    (modelId : Option String) : VectorIndex :=
  let clustering := AnnTree.cluster ops.toArith (Kmeans.trainer ops.toOps) (rows.map Prod.snd) dim
    (Kmeans.chooseNlist rows.length)
  { dim
    metric := metricCosine
    centroids := clustering.centroids
    -- every row is pushed to the list of its centroid
    partitions := (rows.zip clustering.assignments).foldl
      (fun partitions p => partitions.modify p.2 (· ++ [entryOf ops rotations dim p.1]))
      (List.replicate clustering.centroids.length [])
    modelId }

/-- `{:?}` of an address. -/
def debugAddress (addr : RowAddress) : String :=
  "RowAddress \x7b block: BlockId(" ++ toString addr.block ++ "), row: " ++ toString addr.row ++ " \x7d"

def buildIvfRabitq (rotations : Rotations) (rows : List (RowAddress × List F32)) (dim : ℕ)
    (modelId : Option String) : Except String (Bytes × BuildParams) :=
  if dim = 0 then .error "cannot build vector index with dim=0"
  else if rows = [] then .error "cannot build vector index over zero rows"
  else
    match rows.find? fun row => row.2.length ≠ dim with
    | some row => .error ("row " ++ debugAddress row.1 ++ " has length " ++ toString row.2.length ++
        " but index dim is " ++ toString dim)
    | none =>
      let index := buildIndex ops rotations rows dim modelId
      .ok (write index, ⟨index.centroids.length, 1, dim, "cosine", 1⟩)

end Builder

section Safety

variable (utf8Error : Bytes → String) (buf : Bytes)

theorem safe_rdU32 (off : ℕ) : Safe (rdU32 buf off) fun _ => off + 4 ≤ buf.length ∧ off + 4 < 2 ^ 64 :=
  (Safe.rdLe errors 4 buf off).bind fun _ h => Safe.pure ⟨h.1, h.2.1⟩

theorem safe_rdF32 (off : ℕ) : Safe (rdF32 buf off) fun _ => off + 4 ≤ buf.length ∧ off + 4 < 2 ^ 64 :=
  (safe_rdU32 buf off).bind fun _ h => Safe.pure h

theorem safe_readModel (len : ℕ) (bytes : Bytes) : Safe (readModel utf8Error len bytes) fun _ => True := by
  unfold readModel
  refine Safe.ite (fun _ => Safe.pure trivial) fun _ => ?_
  split
  · exact Safe.pure trivial
  · exact Safe.fail _

theorem safe_readHeader : Safe (readHeader utf8Error buf) fun _ => True := by
  unfold readHeader
  refine Safe.ite (fun _ => Safe.fail _) fun hlen => ?_
  refine (Safe.slice (by omega) (by omega)).bind fun head _ => ?_
  refine Safe.ite (fun _ => Safe.fail _) fun _ => ?_
  refine (safe_rdU32 buf 4).bind fun version _ => ?_
  refine Safe.ite (fun _ => Safe.fail _) fun _ => ?_
  refine (safe_rdU32 buf 8).bind fun dim _ => ?_
  refine (Safe.getRange _ _ _ _).bind fun metric _ => ?_
  refine (safe_rdU32 buf 13).bind fun nlist _ => ?_
  refine (safe_rdU32 buf 17).bind fun modelLen _ => ?_
  refine (Safe.checkedAdd _ _ _).bind fun modelEnd _ => ?_
  refine (Safe.getRange _ _ _ _).bind fun bytes _ => ?_
  exact (safe_readModel utf8Error _ _).bind fun modelId _ => Safe.pure trivial

theorem safe_readCoordinate (off : ℕ) : Safe (readCoordinate buf off) fun _ => True := by
  unfold readCoordinate
  refine (safe_rdF32 buf off).bind fun x h => ?_
  exact (Safe.add h.2).bind fun off' _ => Safe.pure trivial

theorem safe_readCentroids (header : Header) : Safe (readCentroids buf header) fun _ => True := by
  unfold readCentroids
  refine (Safe.times (I := fun _ => True) (R := fun _ => True) (fun off _ => ?_) _ trivial).bind
    fun _ _ => Safe.pure trivial
  refine (Safe.times (I := fun _ => True) (R := fun _ => True) (fun off _ => ?_) _ trivial).mono
    fun _ _ => ⟨trivial, trivial⟩
  exact (safe_readCoordinate buf off).mono fun _ _ => ⟨trivial, trivial⟩

theorem safe_readFooterDirectory (nlist : ℕ) :
    Safe (readFooterDirectory buf nlist) fun footer => footer + nlist * 16 < 2 ^ 64 := by
  unfold readFooterDirectory
  refine Safe.ite (fun _ => Safe.fail _) fun hlen => ?_
  refine (Safe.slice (by omega) le_rfl).bind fun tail _ => ?_
  refine Safe.ite (fun _ => Safe.fail _) fun _ => ?_
  refine (Safe.rdLe errors 8 buf _).bind fun footer _ => ?_
  refine Safe.ite (fun _ => Safe.fail _) fun _ => ?_
  refine (Safe.checkedAdd _ _ _).bind ?_
  rintro dirEnd ⟨rfl, hsum⟩
  exact Safe.ite (fun _ => Safe.fail _) fun _ => Safe.pure hsum

theorem safe_readEntry {stop : ℕ} (hstop : stop ≤ buf.length) (clen off : ℕ) :
    Safe (readEntry buf stop clen off) fun _ => True := by
  unfold readEntry
  refine (Safe.checkedAdd _ _ _).bind ?_
  rintro needed ⟨rfl, hsum⟩
  refine Safe.ite (fun _ => Safe.fail _) fun hroom => ?_
  refine (safe_rdU32 buf off).bind fun block _ => ?_
  refine (Safe.add (by omega)).bind ?_
  rintro rowOff rfl
  refine (safe_rdU32 buf _).bind fun row _ => ?_
  refine (Safe.add (by omega)).bind ?_
  rintro codeOff rfl
  refine (Safe.add (by omega)).bind ?_
  rintro codeEnd rfl
  refine (Safe.slice (by omega) (by omega)).bind fun code _ => ?_
  exact (safe_rdF32 buf _).bind fun correction _ => Safe.pure trivial

theorem safe_decodePartition {stop : ℕ} (hstop : stop ≤ buf.length) (start dim : ℕ) :
    Safe (decodePartition buf start stop dim) fun _ => True := by
  unfold decodePartition
  refine (safe_rdU32 buf start).bind fun count hcount => ?_
  refine (Safe.add hcount.2).bind fun off _ => ?_
  refine (Safe.times (I := fun _ => True) (R := fun _ => True) (fun off _ => ?_) _ trivial).bind
    fun _ _ => Safe.pure trivial
  exact (safe_readEntry buf hstop _ off).mono fun _ _ => ⟨trivial, trivial⟩

theorem safe_readPartition (header : Header) (idx : ℕ) : Safe (readPartition buf header idx) fun _ => True := by
  unfold readPartition
  refine Safe.ite (fun _ => Safe.fail _) fun hidx => ?_
  have hnlist := header.nlist.toNat_lt
  refine (safe_readFooterDirectory buf _).bind fun footer hfooter => ?_
  refine (Safe.mul (by omega)).bind ?_
  rintro skip rfl
  refine (Safe.add (by omega)).bind ?_
  rintro dirEntryOff rfl
  refine (Safe.rdLe errors 8 buf _).bind fun partOff hoff => ?_
  refine (Safe.add hoff.2.1).bind ?_
  rintro lenOff rfl
  refine (Safe.rdLe errors 8 buf _).bind fun partLen _ => ?_
  refine (Safe.checkedAdd _ _ _).bind ?_
  rintro partEnd ⟨rfl, -⟩
  refine Safe.ite (fun _ => Safe.fail _) fun hroom => ?_
  exact safe_decodePartition buf (by omega) _ _

end Safety

/-! ### What is written is read -/

/-- The index fits, its lists apart: there is one for every centroid, centroids and codes have their
lengths, a model has a name, and the file is a buffer. -/
structure Framed (x : VectorIndex) : Prop where
  dim : x.dim < 2 ^ 32
  nlist : x.centroids.length < 2 ^ 32
  partitions : x.partitions.length = x.centroids.length
  model : (modelBytes x).length < 2 ^ 32
  named : x.modelId ≠ some ""
  centroids : ∀ c ∈ x.centroids, c.length = x.dim
  size : (write x).length < 2 ^ 64

structure Fits (x : VectorIndex) : Prop extends Framed x where
  counts : ∀ part ∈ x.partitions, part.length < 2 ^ 32
  codes : ∀ part ∈ x.partitions, ∀ e ∈ part, e.code.code.length = codeLen x.dim

section RoundTrip

variable {utf8Error : Bytes → String} {buf : Bytes} {x : VectorIndex}

variable {off : ℕ}

theorem rdU32_of_at {n : ℕ} (h : At buf off (leBytes 4 n)) (hoff : off + 4 < 2 ^ 64) :
    rdU32 buf off = .ok (.ofNat n) := by
  rw [← leBytes_mod] at h
  have hread : rdLe errors 4 buf off = .ok (n % 256 ^ 4) := rdLe_of_at h (Nat.mod_lt _ (by norm_num)) hoff
  simp only [rdU32, hread, Except.bind, bind]
  have hbits : UInt32.ofNat (n % 256 ^ 4) = UInt32.ofNat n := by
    apply UInt32.toNat_inj.1
    rw [UInt32.toNat_ofNat', UInt32.toNat_ofNat']
    omega
  rw [hbits]
  rfl

theorem rdU32_of_at_put {v : UInt32} (h : At buf off (putU32 v)) (hoff : off + 4 < 2 ^ 64) :
    rdU32 buf off = .ok v := by
  rw [rdU32_of_at h hoff, UInt32.ofNat_toNat]

theorem rdF32_of_at {v : F32} (h : At buf off (putF32 v)) (hoff : off + 4 < 2 ^ 64) : rdF32 buf off = .ok v := by
  simp only [rdF32, rdU32_of_at_put h hoff, Except.bind, bind]
  rfl

theorem toNat_ofNat {n : ℕ} (h : n < 2 ^ 32) : (UInt32.ofNat n).toNat = n := by
  rw [UInt32.toNat_ofNat']
  exact Nat.mod_eq_of_lt h

theorem length_putU32 (v : UInt32) : (putU32 v).length = 4 := Wire.length_leBytes 4 _

theorem length_putF32 (v : F32) : (putF32 v).length = 4 := Wire.length_leBytes 4 _

theorem length_putHeader (x : VectorIndex) : (putHeader x).length = 21 + (modelBytes x).length := by
  simp only [putHeader, length_append, Wire.length_leBytes, length_putU32, length_singleton]
  change 4 + _ = _
  omega

theorem readModel_modelBytes (h : x.modelId ≠ some "") :
    readModel utf8Error (modelBytes x).length (modelBytes x) = .ok x.modelId := by
  have hempty : utf8 "" = [] := rfl
  cases hmodel : x.modelId with
  | none =>
    have hbytes : modelBytes x = [] := by rw [modelBytes, hmodel, Option.getD_none, hempty]
    rw [hbytes, readModel, length_nil, if_pos rfl]
    rfl
  | some model =>
    have hbytes : modelBytes x = utf8 model := by rw [modelBytes, hmodel, Option.getD_some]
    have hne : (utf8 model).length ≠ 0 := by
      intro hzero
      have hnil : utf8 model = utf8 "" := (length_eq_zero_iff.1 hzero).trans hempty.symm
      have hname := (fromUTF8?_utf8 model).symm.trans (hnil ▸ fromUTF8?_utf8 "")
      exact h (hmodel.trans hname)
    rw [hbytes, readModel, if_neg hne, fromUTF8?_utf8]
    rfl

theorem at_front (x : VectorIndex) : At (write x) 0 (putFront x) := (at_self (write x)).left.left

def headerOf (x : VectorIndex) : Header :=
  { version := formatVersion
    dim := .ofNat x.dim
    metric := x.metric
    nlist := .ofNat x.centroids.length
    modelId := x.modelId
    centroidsOffset := (putHeader x).length }

theorem readHeader_write (h : Framed x) : readHeader utf8Error (write x) = .ok (headerOf x) := by
  have hsize := h.size
  have hheader : At (write x) 0 (putHeader x) := (at_front x).left
  have hle := hheader.le
  rw [length_putHeader] at hle
  have hmodel := h.model
  have hversion := hheader.right
  have hdim := hversion.right
  have hmetric := hdim.right
  have hnlist := hmetric.right
  have hlen := hnlist.right
  have hname := hlen.right
  rw [length_putU32] at hdim hmetric hnlist hlen hname
  rw [Wire.length_leBytes] at hmetric hnlist hlen hname
  rw [Wire.length_leBytes] at hlen hname
  rw [Wire.length_leBytes] at hname
  have h₀ : (slice (write x) 0 4 : Outcome SidecarError Bytes) = .ok magic := slice_of_at hheader.left
  have h₁ : rdU32 (write x) 4 = .ok formatVersion := rdU32_of_at_put hversion.left (by norm_num)
  have h₂ : rdU32 (write x) 8 = .ok (.ofNat x.dim) := rdU32_of_at hdim.left (by norm_num)
  have h₃ : getRange (SidecarError.tooShort 13 (write x).length) (write x) 12 13 = .ok [x.metric] :=
    getRange_of_at hmetric.left _
  have h₄ : rdU32 (write x) 13 = .ok (.ofNat x.centroids.length) := rdU32_of_at hnlist.left (by norm_num)
  have h₅ : rdU32 (write x) 17 = .ok (.ofNat (modelBytes x).length) := rdU32_of_at hlen.left (by norm_num)
  have h₆ := checkedAdd_of_lt (x := 21) (y := (modelBytes x).length) (by omega)
    (SidecarError.corrupt "model_id length overflow")
  have h₇ : getRange (SidecarError.tooShort (21 + (modelBytes x).length) (write x).length) (write x) 21
      (21 + (modelBytes x).length) = .ok (modelBytes x) := getRange_of_at hname _
  have h₈ : readModel utf8Error (modelBytes x).length (modelBytes x) = .ok x.modelId := readModel_modelBytes h.named
  have hshort : ¬ (write x).length < 4 := by omega
  simp only [readHeader, if_neg hshort, h₀, h₁, h₂, h₃, h₄, h₅, toNat_ofNat hmodel, h₆, h₇, h₈, Except.bind,
    bind, ne_eq, not_true_eq_false, if_false, headerOf, length_putHeader]
  rfl

theorem readCoordinate_of_at {v : F32} (h : At buf off (putF32 v)) (hbuf : buf.length < 2 ^ 64) :
    readCoordinate buf off = .ok (v, off + (putF32 v).length) := by
  have hle := h.le
  rw [length_putF32] at hle ⊢
  have hadd := add_of_lt (E := SidecarError) (x := off) (y := 4) (by omega)
  simp only [readCoordinate, rdF32_of_at h (by omega), hadd, Except.bind, bind]
  rfl

theorem readCentroids_write (h : Framed x) {header : Header} (hdim : header.dim = .ofNat x.dim)
    (hnlist : header.nlist = .ofNat x.centroids.length) (hoffset : header.centroidsOffset = (putHeader x).length) :
    readCentroids (write x) header = .ok x.centroids := by
  have hat : At (write x) (putHeader x).length (x.centroids.flatMap fun c => c.flatMap putF32) := by
    have hright := (at_front x).right
    rwa [Nat.zero_add] at hright
  have hcentroid : ∀ c ∈ x.centroids, ∀ off, At (write x) off (c.flatMap putF32) →
      times x.dim (readCoordinate (write x)) off = .ok (c, off + (c.flatMap putF32).length) := by
    intro c hc off hc'
    rw [← h.centroids c hc]
    exact times_of_at (fun v _ off hv => readCoordinate_of_at hv h.size) hc'
  have hread := times_of_at (f := times x.dim (readCoordinate (write x))) hcentroid hat
  simp only [readCentroids, hdim, hnlist, hoffset, toNat_ofNat h.dim, toNat_ofNat h.nlist, hread, Except.bind, bind]
  rfl

theorem length_putSlot (slot : ℕ × ℕ) : (putSlot slot).length = 16 := by
  rw [putSlot, length_append, Wire.length_leBytes, Wire.length_leBytes]

theorem length_flatMap_putSlot (slots : List (ℕ × ℕ)) : (slots.flatMap putSlot).length = slots.length * 16 := by
  induction slots with
  | nil => rfl
  | cons slot slots ih =>
    rw [flatMap_cons, length_append, ih, length_putSlot, length_cons]
    omega

theorem length_directoryFrom (start : ℕ) (partitions : List (List Entry)) :
    (directoryFrom start partitions).length = partitions.length := by
  induction partitions generalizing start with
  | nil => rfl
  | cons part partitions ih => rw [directoryFrom, length_cons, length_cons, ih]

variable {part : List Entry}

theorem directoryFrom_spec {start : ℕ} {partitions : List (List Entry)}
    (h : At buf start (partitions.flatMap putPartition)) {i : ℕ} (hi : partitions[i]? = some part) :
    ∃ off, (directoryFrom start partitions)[i]? = some (off, (putPartition part).length) ∧
      At buf off (putPartition part) := by
  induction partitions generalizing start i with
  | nil => cases hi
  | cons part' partitions ih =>
    rw [flatMap_cons] at h
    cases i with
    | zero =>
      cases hi
      exact ⟨start, rfl, h.left⟩
    | succ i => exact ih h.right hi

theorem at_directory (x : VectorIndex) : At (write x) (putBody x).length ((directory x).flatMap putSlot) := by
  have h := (at_self (write x)).right.left
  rwa [Nat.zero_add] at h

theorem length_write (h : x.partitions.length = x.centroids.length) :
    (write x).length = (putBody x).length + x.centroids.length * 16 + 12 := by
  have hdirectory : (directory x).length = x.centroids.length := by
    rw [directory, length_directoryFrom, h]
  rw [write, length_append, length_append, length_flatMap_putSlot, length_append, Wire.length_leBytes, hdirectory]
  change _ + (_ + (8 + 4)) = _
  omega

theorem readFooterDirectory_write (h : Framed x) :
    readFooterDirectory (write x) x.centroids.length = .ok (putBody x).length := by
  have hlength := length_write h.partitions
  have hsize := h.size
  have hnlist := h.nlist
  have hend := (at_self (write x)).right.right
  rw [length_flatMap_putSlot, show (directory x).length = x.centroids.length by
    rw [directory, length_directoryFrom, h.partitions], Nat.zero_add] at hend
  have htail := hend.right
  rw [Wire.length_leBytes] at htail
  have hoff : (write x).length - 12 = (putBody x).length + x.centroids.length * 16 := by omega
  have hmagic : (write x).length - 4 = (putBody x).length + x.centroids.length * 16 + 8 := by omega
  have h₁ : (slice (write x) ((write x).length - 4) (write x).length : Outcome SidecarError Bytes) = .ok magic := by
    have hslice := slice_of_at (E := SidecarError) htail
    rwa [← hmagic, show (write x).length - 4 + magic.length = (write x).length by
      change (write x).length - 4 + 4 = _
      omega] at hslice
  have h₂ : rdU64 (write x) ((putBody x).length + x.centroids.length * 16) = .ok (putBody x).length :=
    rdLe_of_at hend.left (by norm_num; omega) (by omega)
  have h₃ := checkedAdd_of_lt (x := (putBody x).length) (y := x.centroids.length * 16) (by omega)
    (SidecarError.corrupt "directory end overflow")
  have hshort : ¬ (write x).length < 12 := by omega
  have hmul : ¬ 2 ^ 64 ≤ x.centroids.length * 16 := by omega
  simp only [readFooterDirectory, if_neg hshort, h₁, h₂, if_neg hmul, h₃, hoff, Except.bind, bind, ne_eq,
    not_true_eq_false, if_false]
  rfl

theorem readPartition_write (h : Framed x) {header : Header} (hdim : header.dim = .ofNat x.dim)
    (hnlist : header.nlist = .ofNat x.centroids.length) {i : ℕ} (hi : x.partitions[i]? = some part) :
    ∃ off, At (write x) off (putPartition part) ∧ readPartition (write x) header i =
        decodePartition (write x) off (off + (putPartition part).length) x.dim := by
  have hsize := h.size
  have hn := h.nlist
  have hlength := length_write h.partitions
  have hlt : i < x.centroids.length := by
    rw [← h.partitions]
    exact (List.getElem?_eq_some_iff.1 hi).1
  have hparts : At (write x) (putFront x).length (x.partitions.flatMap putPartition) := by
    have hbody := (at_self (write x)).left.right
    rwa [Nat.zero_add] at hbody
  obtain ⟨off, hslot, hat⟩ := directoryFrom_spec hparts hi
  have hentry := At.get length_putSlot (at_directory x) hslot
  have hle := hat.le
  have hoffAt := hentry.left
  have hlenAt := hentry.right
  rw [Wire.length_leBytes] at hlenAt
  have h₁ := mul_of_lt (E := SidecarError) (x := i) (y := 16) (by omega)
  have h₂ := add_of_lt (E := SidecarError) (x := (putBody x).length) (y := i * 16) (by omega)
  have h₃ : rdU64 (write x) ((putBody x).length + i * 16) = .ok off :=
    rdLe_of_at hoffAt (by norm_num; omega) (by omega)
  have h₄ := add_of_lt (E := SidecarError) (x := (putBody x).length + i * 16) (y := 8) (by omega)
  have h₅ : rdU64 (write x) ((putBody x).length + i * 16 + 8) = .ok (putPartition part).length :=
    rdLe_of_at hlenAt (by norm_num; omega) (by omega)
  have h₆ := checkedAdd_of_lt (x := off) (y := (putPartition part).length) (by omega)
    (SidecarError.corrupt "partition end overflow")
  have hidx : ¬ x.centroids.length ≤ i := by omega
  have hroom : ¬ off + (putPartition part).length > (write x).length := by omega
  refine ⟨off, hat, ?_⟩
  simp only [readPartition, hdim, hnlist, toNat_ofNat hn, toNat_ofNat h.dim, if_neg hidx,
    readFooterDirectory_write h, h₁, h₂, h₃, h₄, h₅, h₆, if_neg hroom, Except.bind, bind]

theorem length_putEntry (e : Entry) : (putEntry e).length = 4 + 4 + e.code.code.length + 4 := by
  simp only [putEntry, length_append, length_putU32, length_putF32]
  omega

theorem readEntry_of_at {e : Entry} {stop clen : ℕ} (h : At buf off (putEntry e))
    (hcode : e.code.code.length = clen) (hroom : off + (putEntry e).length ≤ stop) (hstop : stop < 2 ^ 64) :
    readEntry buf stop clen off = .ok (e, off + (putEntry e).length) := by
  rw [length_putEntry, hcode] at hroom ⊢
  have hblock := h.left
  have hrow := h.right.left
  have hcodeAt := h.right.right.left
  have hcorrection := h.right.right.right
  rw [length_putU32] at hrow hcodeAt hcorrection
  rw [length_putU32] at hcodeAt hcorrection
  rw [hcode] at hcorrection
  have h₁ := checkedAdd_of_lt (x := off) (y := 4 + 4 + clen + 4) (by omega)
    (SidecarError.corrupt "entry offset overflow")
  have h₂ : rdU32 buf off = .ok e.addr.block := rdU32_of_at_put hblock (by omega)
  have h₃ := add_of_lt (E := SidecarError) (x := off) (y := 4) (by omega)
  have h₄ : rdU32 buf (off + 4) = .ok e.addr.row := rdU32_of_at_put hrow (by omega)
  have h₅ := add_of_lt (E := SidecarError) (x := off) (y := 8) (by omega)
  have h₆ := add_of_lt (E := SidecarError) (x := off + 8) (y := clen) (by omega)
  have h₇ : (slice buf (off + 8) (off + 8 + clen) : Outcome SidecarError Bytes) = .ok e.code.code := by
    rw [← hcode]
    exact slice_of_at hcodeAt
  have h₈ : rdF32 buf (off + 8 + clen) = .ok e.code.correction := rdF32_of_at hcorrection (by omega)
  have hnot : ¬ off + (4 + 4 + clen + 4) > stop := by omega
  simp only [readEntry, h₁, if_neg hnot, h₂, h₃, h₄, h₅, h₆, h₇, h₈, Except.bind, bind]
  rfl

theorem decodePartition_of_at {dim : ℕ} (h : At buf off (putPartition part))
    (hcount : part.length < 2 ^ 32) (hcodes : ∀ e ∈ part, e.code.code.length = codeLen dim)
    (hbuf : buf.length < 2 ^ 64) : decodePartition buf off (off + (putPartition part).length) dim = .ok part := by
  have hle := h.le
  have hlength : (putPartition part).length = 4 + (part.flatMap putEntry).length := by
    rw [putPartition, length_append, Wire.length_leBytes]
  have hentries := h.right
  rw [Wire.length_leBytes] at hentries
  have h₁ : rdU32 buf off = .ok (.ofNat part.length) := rdU32_of_at h.left (by omega)
  have h₂ := add_of_lt (E := SidecarError) (x := off) (y := 4) (by omega)
  have h₃ := times_of_at_le (f := readEntry buf (off + (putPartition part).length) (codeLen dim))
    (fun e he off' hat (hroom : _ ≤ off + (putPartition part).length) =>
      readEntry_of_at hat (hcodes e he) hroom (by omega)) hentries (by omega)
  simp only [decodePartition, h₁, h₂, toNat_ofNat hcount, h₃, Except.bind, bind]
  rfl

end RoundTrip

section Conservation

theorem flatten_modify_push {α : Type} {lists : List (List α)} {i : ℕ} (hi : i < lists.length) (a : α) :
    (lists.modify i (· ++ [a])).flatten.Perm (a :: lists.flatten) := by
  induction lists generalizing i with
  | nil => cases hi
  | cons l lists ih =>
    cases i with
    | zero =>
      rw [modify_zero_cons, flatten_cons, flatten_cons, append_assoc]
      exact perm_middle
    | succ i =>
      rw [modify_succ_cons, flatten_cons, flatten_cons]
      exact ((ih (Nat.lt_of_succ_lt_succ hi)).append_left l).trans perm_middle

theorem flatten_foldl_push {α β : Type} (f : α → β) {items : List (α × ℕ)} {lists : List (List β)}
    (h : ∀ p ∈ items, p.2 < lists.length) :
    (items.foldl (fun lists p => lists.modify p.2 (· ++ [f p.1])) lists).length = lists.length ∧
      (items.foldl (fun lists p => lists.modify p.2 (· ++ [f p.1])) lists).flatten.Perm
        (lists.flatten ++ items.map fun p => f p.1) := by
  induction items generalizing lists with
  | nil => exact ⟨rfl, by simp⟩
  | cons p items ih =>
    have hlen : (lists.modify p.2 (· ++ [f p.1])).length = lists.length := length_modify ..
    obtain ⟨hlength, hperm⟩ := @ih (lists.modify p.2 (· ++ [f p.1])) fun q hq => hlen.symm ▸ h q (mem_cons_of_mem _ hq)
    refine ⟨hlength.trans hlen, hperm.trans ?_⟩
    have hpush := flatten_modify_push (h p (mem_cons_self ..)) (f p.1)
    refine (hpush.append_right _).trans ?_
    rw [map_cons]
    exact perm_middle.symm

variable {ops : QuantOps} {rotations : Rotations} {rows : List (RowAddress × List F32)} {dim : ℕ}
  {modelId : Option String}

theorem flatten_partitions (ops : QuantOps) (rotations : Rotations)
    (rows : List (RowAddress × List F32)) (dim : ℕ) (modelId : Option String) :
    (buildIndex ops rotations rows dim modelId).partitions.length =
        (buildIndex ops rotations rows dim modelId).centroids.length ∧
      (buildIndex ops rotations rows dim modelId).partitions.flatten.Perm (rows.map (entryOf ops rotations dim)) := by
  obtain ⟨hlength, hperm⟩ := @flatten_foldl_push _ _ (entryOf ops rotations dim)
    (rows.zip (AnnTree.cluster ops.toArith (Kmeans.trainer ops.toOps) (rows.map Prod.snd) dim
      (Kmeans.chooseNlist rows.length)).assignments)
    (List.replicate (buildIndex ops rotations rows dim modelId).centroids.length [])
    (fun p hp => by
      rw [length_replicate]
      exact Kmeans.assignments_lt ops.toOps _ _ _ (of_mem_zip hp).2)
  rw [length_replicate] at hlength
  refine ⟨hlength, hperm.trans ?_⟩
  have hfst : (rows.zip (AnnTree.cluster ops.toArith (Kmeans.trainer ops.toOps) (rows.map Prod.snd) dim
      (Kmeans.chooseNlist rows.length)).assignments).map Prod.fst = rows := by
    refine map_fst_zip (le_of_eq ?_)
    simp [AnnTree.cluster]
  have hnil : (List.replicate (buildIndex ops rotations rows dim modelId).centroids.length
      ([] : List Entry)).flatten = [] := by simp
  rw [hnil, nil_append, show (fun p : (RowAddress × List F32) × ℕ => entryOf ops rotations dim p.1) =
    entryOf ops rotations dim ∘ Prod.fst from rfl, ← map_map, hfst]

theorem length_packSigns (rotated : List F32) : (packSigns ops rotated).length = codeLen rotated.length := by
  have hfold : ∀ (l : List (F32 × ℕ)) (code : Bytes), (l.foldl
      (fun code p => if ops.le ops.zero p.1 then
        code.modify (p.2 / 8) (· ||| (1 <<< UInt8.ofNat (p.2 % 8))) else code) code).length =
      code.length := by
    intro l
    induction l with
    | nil => intro code; rfl
    | cons p l ih =>
      intro code
      rw [foldl_cons, ih]
      split
      · exact length_modify ..
      · rfl
  rw [packSigns, hfold, length_replicate]

theorem length_code (row : RowAddress × List F32) : (entryOf ops rotations dim row).code.code.length = codeLen dim := by
  change (packSigns ops (applyRotation ops (rotations.mat dim) row.2)).length = _
  rw [length_packSigns, applyRotation, length_map, rotations.length_mat]

theorem length_centroids_le (ops : QuantOps) (rotations : Rotations)
    (rows : List (RowAddress × List F32)) (dim : ℕ) (modelId : Option String) :
    (buildIndex ops rotations rows dim modelId).centroids.length ≤ 256 := by
  have hlen := Kmeans.length_train ops.toOps (rows.map Prod.snd) dim
    (AnnTree.clamp (Kmeans.chooseNlist rows.length) 1 (rows.map Prod.snd).length)
  change (Kmeans.train ops.toOps (rows.map Prod.snd) dim _).length ≤ 256
  rw [hlen]
  unfold AnnTree.clamp Kmeans.chooseNlist AnnTree.clamp
  split <;> omega

theorem buildIvfRabitq_eq_ok {result : Bytes × BuildParams}
    (h : buildIvfRabitq ops rotations rows dim modelId = .ok result) :
    result.1 = write (buildIndex ops rotations rows dim modelId) ∧ rows ≠ [] ∧ ∀ row ∈ rows, row.2.length = dim := by
  unfold buildIvfRabitq at h
  split at h
  · cases h
  · split at h
    · cases h
    · rename_i hrows
      split at h
      · cases h
      · rename_i hfind
        cases h
        refine ⟨rfl, hrows, fun row hrow => ?_⟩
        simpa using find?_eq_none.1 hfind row hrow

theorem fits_buildIndex {result : Bytes × BuildParams}
    (h : buildIvfRabitq ops rotations rows dim modelId = .ok result) (hdim : dim < 2 ^ 32)
    (hrows : rows.length < 2 ^ 32) (hmodel : (utf8 (modelId.getD "")).length < 2 ^ 32)
    (hnamed : modelId ≠ some "") (hsize : result.1.length < 2 ^ 64) :
    Fits (buildIndex ops rotations rows dim modelId) := by
  obtain ⟨hbytes, hne, hlengths⟩ := buildIvfRabitq_eq_ok h
  obtain ⟨hpartitions, hperm⟩ := flatten_partitions ops rotations rows dim modelId
  have hcentroids := length_centroids_le ops rotations rows dim modelId
  refine
    { dim := hdim
      nlist := by omega
      partitions := hpartitions
      model := hmodel
      named := hnamed
      centroids := ?_
      size := hbytes ▸ hsize
      counts := fun part hpart => ?_
      codes := fun part hpart e he => ?_ }
  · refine Kmeans.length_of_mem_train ops.toOps _ ?_ ?_
    · intro v hv
      obtain ⟨row, hrow, rfl⟩ := mem_map.1 hv
      exact hlengths row hrow
    · rw [length_map]
      exact length_pos_iff.2 hne
  · have hle := (sublist_flatten_of_mem hpart).length_le
    rw [hperm.length_eq, length_map] at hle
    omega
  · have hmem := hperm.subset (mem_flatten.2 ⟨part, hpart, he⟩)
    obtain ⟨row, -, rfl⟩ := mem_map.1 hmem
    exact length_code row

end Conservation

/-! ### The file as a whole -/

theorem readParts (utf8Error : Bytes → String) {x : VectorIndex} (h : Fits x) :
    ∃ header, readHeader utf8Error (write x) = .ok header ∧ (header.dim.toNat = x.dim ∧ header.metric = x.metric ∧
        header.nlist.toNat = x.centroids.length ∧ header.modelId = x.modelId) ∧
      readCentroids (write x) header = .ok x.centroids ∧
      (List.range header.nlist.toNat).mapM (readPartition (write x) header) = .ok x.partitions := by
  refine ⟨headerOf x, readHeader_write h.toFramed, ⟨toNat_ofNat h.dim, rfl, toNat_ofNat h.nlist, rfl⟩,
    readCentroids_write h.toFramed rfl rfl rfl, ?_⟩
  have hnlist : (headerOf x).nlist.toNat = x.centroids.length := toNat_ofNat h.nlist
  rw [Fallible.mapM_eq_ok_iff, hnlist, forall₂_iff_get]
  refine ⟨by rw [length_range, h.partitions], fun i hi hi' => ?_⟩
  obtain ⟨off, hat, hread⟩ := @readPartition_write x _ h.toFramed (headerOf x) rfl rfl i (getElem?_eq_getElem hi')
  rw [get_eq_getElem, getElem_range, get_eq_getElem, hread]
  exact decodePartition_of_at hat (h.counts _ (getElem_mem hi')) (h.codes _ (getElem_mem hi')) h.size

/-- **The round trip, row conservation, and nothing is stopped.** -/
theorem sidecar_exact (utf8Error : Bytes → String) (ops : QuantOps) (rotations : Rotations) :
    (∀ x, Fits x → ∃ header, readHeader utf8Error (write x) = .ok header ∧
      (header.dim.toNat = x.dim ∧ header.metric = x.metric ∧
        header.nlist.toNat = x.centroids.length ∧ header.modelId = x.modelId) ∧
      readCentroids (write x) header = .ok x.centroids ∧
      (List.range header.nlist.toNat).mapM (readPartition (write x) header) = .ok x.partitions) ∧
    (∀ rows dim modelId result, buildIvfRabitq ops rotations rows dim modelId = .ok result →
      dim < 2 ^ 32 → rows.length < 2 ^ 32 → (utf8 (modelId.getD "")).length < 2 ^ 32 →
      modelId ≠ some "" → result.1.length < 2 ^ 64 → ∃ header partitions, readHeader utf8Error result.1 = .ok header ∧
        (List.range header.nlist.toNat).mapM (readPartition result.1 header) = .ok partitions ∧
        partitions.flatten.Perm (rows.map (entryOf ops rotations dim))) ∧
    ∀ buf header idx, readHeader utf8Error buf ≠ .error .panic ∧
      readCentroids buf header ≠ .error .panic ∧ readPartition buf header idx ≠ .error .panic := by
  refine ⟨fun x hfits => readParts utf8Error hfits, fun rows dim modelId result h hdim hrows hmodel hnamed hsize => ?_,
    fun buf header idx => ⟨(safe_readHeader utf8Error buf).1, (safe_readCentroids buf header).1,
      (safe_readPartition buf header idx).1⟩⟩
  have hfits := fits_buildIndex h hdim hrows hmodel hnamed hsize
  obtain ⟨header, hheader, -, -, hparts⟩ := readParts utf8Error hfits
  rw [(buildIvfRabitq_eq_ok h).1]
  exact ⟨header, _, hheader, hparts, (flatten_partitions ops rotations rows dim modelId).2⟩

def smallIndex : VectorIndex :=
  { dim := 1
    metric := metricCosine
    centroids := [[⟨0⟩], [⟨1⟩]]
    partitions := [[⟨⟨2, 3⟩, ⟨[1], ⟨4⟩⟩⟩], []]
    modelId := some "m" }

theorem fits_smallIndex : Fits smallIndex := by
  refine ⟨?_, by decide, by decide⟩
  constructor <;> decide

def noArithmetic : QuantOps :=
  { zero := ⟨0⟩
    add := fun x _ => x
    sub := fun x _ => x
    mul := fun x _ => x
    lt := fun _ _ => false
    infinity := ⟨0⟩
    one := ⟨0⟩
    div := fun x _ => x
    ofNat := fun _ => ⟨0⟩
    le := fun _ _ => false
    abs := id
    sqrt := id
    tiny := ⟨0⟩ }

theorem sidecar_exact_small : ∃ header, readHeader (fun _ => "") (write smallIndex) = .ok header ∧
      (header.dim.toNat = smallIndex.dim ∧ header.metric = smallIndex.metric ∧
        header.nlist.toNat = smallIndex.centroids.length ∧ header.modelId = smallIndex.modelId) ∧
      readCentroids (write smallIndex) header = .ok smallIndex.centroids ∧
      (List.range header.nlist.toNat).mapM (readPartition (write smallIndex) header) = .ok smallIndex.partitions :=
  (sidecar_exact (fun _ => "") noArithmetic
    ⟨fun dim => List.replicate dim [], fun _ => length_replicate⟩).1 _ fits_smallIndex

/-! ### A list that its count does not count -/

/-- A list of `n` entries without codes. -/
def longPartition (n : ℕ) : List Entry := List.replicate n ⟨⟨0, 0⟩, ⟨[], ⟨0⟩⟩⟩

def longIndex (n : ℕ) : VectorIndex :=
  { dim := 0
    metric := metricCosine
    centroids := [[]]
    partitions := [longPartition n]
    modelId := none }

theorem length_putPartition_longPartition (n : ℕ) : (putPartition (longPartition n)).length = 4 + n * 12 := by
  rw [putPartition, length_append, Wire.length_leBytes, longPartition]
  induction n with
  | zero => rfl
  | succ n ih =>
    rw [replicate_succ, flatMap_cons, length_append, length_putEntry]
    change 4 + (12 + _) = _
    omega

theorem framed_longIndex {n : ℕ} (h : n < 2 ^ 33) : Framed (longIndex n) := by
  refine
    { dim := Nat.pow_pos (by norm_num)
      nlist := by change 1 < _; norm_num
      partitions := rfl
      model := Nat.pow_pos (by norm_num)
      named := nofun
      centroids := fun c hc => by rw [mem_singleton.1 hc]; rfl
      size := ?_ }
  have hfront : (putFront (longIndex n)).length = 21 := rfl
  have hlists : ((longIndex n).partitions.flatMap putPartition).length = 4 + n * 12 := by
    change ([longPartition n].flatMap putPartition).length = _
    rw [flatMap_singleton, length_putPartition_longPartition]
  rw [length_write rfl, putBody, length_append, hfront, hlists]
  change 21 + (4 + n * 12) + 1 * 16 + 12 < _
  norm_num at h ⊢
  omega

theorem not_read_of_mod {n : ℕ} (hpos : 0 < n) (hlt : n < 2 ^ 33) (hmod : n % 2 ^ 32 = 0)
    (utf8Error : Bytes → String) : ¬ ∃ header, readHeader utf8Error (write (longIndex n)) = .ok header ∧
      (List.range header.nlist.toNat).mapM (readPartition (write (longIndex n)) header) =
        .ok (longIndex n).partitions := by
  rintro ⟨header, hheader, hparts⟩
  have hframed := framed_longIndex hlt
  rw [readHeader_write hframed] at hheader
  cases hheader
  obtain ⟨off, hat, hread⟩ := @readPartition_write _ (longPartition n) hframed (headerOf (longIndex n)) rfl rfl 0 rfl
  have hle := hat.le
  rw [length_putPartition_longPartition] at hle
  have hsize := hframed.size
  have hcount := hat.left
  -- the count that is read is that of an empty list
  rw [← leBytes_mod, longPartition, length_replicate, show 256 ^ 4 = 2 ^ 32 by norm_num, hmod] at hcount
  have h₁ : rdU32 (write (longIndex n)) off = .ok 0 := rdU32_of_at hcount (by omega)
  have h₂ := add_of_lt (E := SidecarError) (x := off) (y := 4) (by omega)
  simp only [decodePartition, h₁, h₂, Except.bind, bind] at hread
  change (List.range 1).mapM (readPartition (write (longIndex n)) (headerOf (longIndex n))) =
    .ok [longPartition n] at hparts
  obtain ⟨hfirst, -⟩ := forall₂_cons.1 (Fallible.mapM_eq_ok_iff.1 hparts)
  have hnil : longPartition n = [] := Except.ok.inj (hfirst.symm.trans hread)
  have hlength : (longPartition n).length = 0 := hnil ▸ rfl
  rw [longPartition, length_replicate] at hlength
  omega

/-- **A list that is longer than its count can say**: of `2 ^ 32` entries none is read. -/
theorem partition_not_read : ¬ ∃ header, readHeader (fun _ => "") (write (longIndex (2 ^ 32))) = .ok header ∧
      (List.range header.nlist.toNat).mapM (readPartition (write (longIndex (2 ^ 32))) header) =
        .ok (longIndex (2 ^ 32)).partitions :=
  not_read_of_mod (by norm_num) (by norm_num) (by norm_num) _

end IvfFile
