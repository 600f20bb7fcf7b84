/-
**The sidecar of full text.**

The files of a full-text index are packed into one blob: a header, a manifest with the name of each
file and where its bytes are, the bytes, and the magic once more.
-/

import Pensieve.Buffers
import Pensieve.GraphSidecar

namespace FtsFile

open List
open Wire (Bytes leBytes)
open Buffers
open GraphTopo (utf8 fromUTF8?_utf8)

/-! ### The writer -/

inductive FtsError where
  | tooShort (need buffer : ℕ)
  | badMagic
  | unsupportedVersion (version : ℕ)
  | corrupt (message : String)
  | tantivy (message : String)
  deriving DecidableEq

/-- `KYFT`. -/
def magic : Bytes := [75, 89, 70, 84]

def formatVersion : ℕ := 1

structure Header where
  version : ℕ
  fileCount : ℕ
  manifestOffset : ℕ
  deriving DecidableEq

structure ManifestEntry where
  name : String
  dataOff : ℕ
  dataLen : ℕ
  deriving DecidableEq

/-- The entries of files whose bytes begin at `cursor`. -/
def entriesFrom : ℕ → List (String × Bytes) → List ManifestEntry
  | _, [] => []
  | cursor, f :: files => ⟨f.1, cursor, f.2.length⟩ :: entriesFrom (cursor + f.2.length) files

def putEntry (e : ManifestEntry) : Bytes :=
  leBytes 4 (utf8 e.name).length ++ (utf8 e.name ++ (leBytes 8 e.dataOff ++ leBytes 8 e.dataLen))

def manifestBytes (files : List (String × Bytes)) : ℕ := (files.map fun f => 4 + (utf8 f.1).length + 8 + 8).sum

def dataStart (files : List (String × Bytes)) : ℕ := 12 + manifestBytes files

def write (files : List (String × Bytes)) : Bytes :=
  magic ++ (leBytes 4 formatVersion ++ (leBytes 4 files.length ++
    ((entriesFrom (dataStart files) files).flatMap putEntry ++ (files.flatMap Prod.snd ++ magic))))

/-! ### The reader -/

def errors : Errors FtsError := ⟨.tooShort, .corrupt "offset overflow"⟩

def rdU32 (buf : Bytes) (off : ℕ) : Outcome FtsError ℕ := rdLe errors 4 buf off

def rdU64 (buf : Bytes) (off : ℕ) : Outcome FtsError ℕ := rdLe errors 8 buf off

def readHeader (buf : Bytes) : Outcome FtsError Header :=
  if buf.length < 12 then fail (.tooShort 12 buf.length)
  else do
    let head ← slice buf 0 4
    if head ≠ magic then fail .badMagic
    else do
      let tail ← slice buf (buf.length - 4) buf.length
      if tail ≠ magic then fail .badMagic
      else do
        let version ← rdU32 buf 4
        if version ≠ formatVersion then fail (.unsupportedVersion version)
        else do
          let fileCount ← rdU32 buf 8
          pure ⟨version, fileCount, 12⟩

/-- One entry of the manifest; `utf8Error` is what the decoder of UTF-8 says of bytes. -/
def readEntry (utf8Error : Bytes → String) (buf : Bytes) (dataFloor off : ℕ) :
    Outcome FtsError (ManifestEntry × ℕ) := do
  let nameLen ← rdU32 buf off
  let off ← add off 4
  let nameEnd ← checkedAdd (.corrupt "name length overflow") off nameLen
  let nameSlice ← getRange (.tooShort nameEnd buf.length) buf off nameEnd
  match String.fromUTF8? ⟨nameSlice.toArray⟩ with
  | none => fail (.corrupt ("file name not utf-8: " ++ utf8Error nameSlice))
  | some name => do
      let dataOff ← rdU64 buf nameEnd
      let off ← add nameEnd 8
      let dataLen ← rdU64 buf off
      let off ← add off 8
      let dataEnd ← checkedAdd (.corrupt "file data range overflow") dataOff dataLen
      if dataEnd > dataFloor then
        fail (.corrupt ("file '" ++ name ++ "' data range [" ++ toString dataOff ++ "," ++
          toString dataEnd ++ ") runs past data region (floor " ++ toString dataFloor ++ ")"))
      else pure (⟨name, dataOff, dataLen⟩, off)

def readManifest (utf8Error : Bytes → String) (buf : Bytes) (header : Header) :
    Outcome FtsError (List ManifestEntry) := do
  let entries ← times header.fileCount (readEntry utf8Error buf (buf.length - 4)) header.manifestOffset
  pure entries.1

/-- A directory of files: `RamDirectory::create` and its `atomic_write`. -/
structure Directory (D : Type) where
  create : D
  atomicWrite : D → String → Bytes → Except String D

def restore {D : Type} (dir : Directory D) (buf : Bytes) (d : D) (e : ManifestEntry) : Outcome FtsError D := do
  let stop ← add e.dataOff e.dataLen
  let bytes ← getRange (.tooShort stop buf.length) buf e.dataOff stop
  match dir.atomicWrite d e.name bytes with
  | .ok d => pure d
  | .error err => fail (.tantivy ("restore '" ++ e.name ++ "': " ++ err))

def openDirectory {D : Type} (dir : Directory D) (utf8Error : Bytes → String) (buf : Bytes) : Outcome FtsError D := do
  let header ← readHeader buf
  let manifest ← readManifest utf8Error buf header
  manifest.foldlM (restore dir buf) dir.create

section Safety

variable (utf8Error : Bytes → String) (buf : Bytes)

theorem safe_readHeader : Safe (readHeader buf) fun h => h.fileCount < 2 ^ 32 := by
  unfold readHeader
  refine Safe.ite (fun _ => Safe.fail _) fun hlen => ?_
  refine (Safe.slice (by omega) (by omega)).bind fun head _ => ?_
  refine Safe.ite (fun _ => Safe.fail _) fun _ => ?_
  refine (Safe.slice (by omega) le_rfl).bind fun tail _ => ?_
  refine Safe.ite (fun _ => Safe.fail _) fun _ => ?_
  refine (Safe.rdLe errors 4 buf 4).bind fun version _ => ?_
  refine Safe.ite (fun _ => Safe.fail _) fun _ => ?_
  refine (Safe.rdLe errors 4 buf 8).bind fun fileCount hcount => ?_
  exact Safe.pure (hcount.2.2.trans_eq (by norm_num))

def InRange (buf : Bytes) (e : ManifestEntry) : Prop :=
  e.dataOff + e.dataLen ≤ buf.length - 4 ∧ e.dataOff + e.dataLen < 2 ^ 64

theorem safe_readEntry (off : ℕ) : Safe (readEntry utf8Error buf (buf.length - 4) off) fun r => InRange buf r.1 := by
  unfold readEntry
  refine (Safe.rdLe errors 4 buf off).bind fun nameLen hname => ?_
  refine (Safe.add hname.2.1).bind ?_
  rintro off₁ rfl
  refine (Safe.checkedAdd _ _ _).bind ?_
  rintro nameEnd ⟨rfl, -⟩
  refine (Safe.getRange _ _ _ _).bind fun nameSlice _ => ?_
  split
  · exact Safe.fail _
  · rename_i name _
    refine (Safe.rdLe errors 8 buf _).bind fun dataOff hoff => ?_
    refine (Safe.add hoff.2.1).bind ?_
    rintro off₂ rfl
    refine (Safe.rdLe errors 8 buf _).bind fun dataLen hlen => ?_
    refine (Safe.add hlen.2.1).bind fun off₃ _ => ?_
    refine (Safe.checkedAdd _ _ _).bind ?_
    rintro dataEnd ⟨rfl, hsum⟩
    refine Safe.ite (fun _ => Safe.fail _) fun hfloor => ?_
    exact Safe.pure ⟨Nat.le_of_not_lt hfloor, hsum⟩

theorem safe_readManifest (header : Header) :
    Safe (readManifest utf8Error buf header) fun m => ∀ e ∈ m, InRange buf e := by
  unfold readManifest
  refine (Safe.times (I := fun _ => True) (R := InRange buf) (fun off _ => ?_) _ trivial).bind ?_
  · exact (safe_readEntry utf8Error buf off).mono fun r hr => ⟨hr, trivial⟩
  · rintro ⟨m, off⟩ ⟨-, hm, -⟩
    exact Safe.pure hm

theorem safe_restore {D : Type} (dir : Directory D) {e : ManifestEntry} (he : InRange buf e) (d : D) :
    Safe (restore dir buf d e) fun _ => True := by
  unfold restore
  refine (Safe.add he.2).bind fun stop _ => ?_
  refine (Safe.getRange _ _ _ _).bind fun bytes _ => ?_
  split
  · exact Safe.pure trivial
  · exact Safe.fail _

theorem safe_foldlM_restore {D : Type} (dir : Directory D) {m : List ManifestEntry}
    (hm : ∀ e ∈ m, InRange buf e) (d : D) : Safe (m.foldlM (restore dir buf) d) fun _ => True := by
  induction m generalizing d with
  | nil => exact Safe.pure trivial
  | cons e m ih =>
    rw [foldlM_cons]
    refine (safe_restore buf dir (hm e (mem_cons_self ..)) d).bind fun d' _ => ?_
    exact ih (fun e' he' => hm e' (mem_cons_of_mem _ he')) d'

theorem safe_openDirectory {D : Type} (dir : Directory D) : Safe (openDirectory dir utf8Error buf) fun _ => True := by
  unfold openDirectory
  refine (safe_readHeader buf).bind fun header _ => ?_
  refine (safe_readManifest utf8Error buf header).bind fun m hm => ?_
  exact safe_foldlM_restore buf dir hm dir.create

end Safety

section RoundTrip

variable {utf8Error : Bytes → String} {buf : Bytes}

theorem length_putEntry (e : ManifestEntry) : (putEntry e).length = 4 + (utf8 e.name).length + 8 + 8 := by
  simp only [putEntry, length_append, Wire.length_leBytes]
  omega

theorem length_flatMap_putEntry (cursor : ℕ) (files : List (String × Bytes)) :
    ((entriesFrom cursor files).flatMap putEntry).length = manifestBytes files := by
  induction files generalizing cursor with
  | nil => rfl
  | cons f files ih =>
    rw [entriesFrom, flatMap_cons, length_append, ih, length_putEntry, manifestBytes, manifestBytes, map_cons, sum_cons]

theorem length_entriesFrom (cursor : ℕ) (files : List (String × Bytes)) :
    (entriesFrom cursor files).length = files.length := by
  induction files generalizing cursor with
  | nil => rfl
  | cons f files ih => rw [entriesFrom, length_cons, length_cons, ih]

def Describes (buf : Bytes) (e : ManifestEntry) (f : String × Bytes) : Prop :=
  e.name = f.1 ∧ e.dataLen = f.2.length ∧ At buf e.dataOff f.2

variable {files : List (String × Bytes)}

theorem describes_entriesFrom {cursor : ℕ} (h : At buf cursor (files.flatMap Prod.snd)) :
    List.Forall₂ (Describes buf) (entriesFrom cursor files) files := by
  induction files generalizing cursor with
  | nil => exact .nil
  | cons f files ih =>
    rw [flatMap_cons] at h
    exact .cons ⟨rfl, rfl, h.left⟩ (ih h.right)

theorem readEntry_of_at {e : ManifestEntry} {dataFloor off : ℕ} (h : At buf off (putEntry e))
    (hname : (utf8 e.name).length < 2 ^ 32) (hrange : e.dataOff + e.dataLen ≤ dataFloor)
    (hfloor : dataFloor < 2 ^ 64) (hbuf : buf.length < 2 ^ 64) :
    readEntry utf8Error buf dataFloor off = .ok (e, off + (putEntry e).length) := by
  have hle := h.le
  rw [length_putEntry] at hle
  have hlen := h.left
  have hnameAt := h.right.left
  have hoffAt := h.right.right.left
  have hlenAt := h.right.right.right
  rw [Wire.length_leBytes] at hnameAt hoffAt hlenAt
  rw [Wire.length_leBytes] at hlenAt
  have h₁ : rdU32 buf off = .ok (utf8 e.name).length := rdLe_of_at hlen (hname.trans_eq (by norm_num)) (by omega)
  have h₂ := add_of_lt (E := FtsError) (x := off) (y := 4) (by omega)
  have h₃ := checkedAdd_of_lt (x := off + 4) (y := (utf8 e.name).length) (by omega)
    (FtsError.corrupt "name length overflow")
  have h₄ := getRange_of_at hnameAt (FtsError.tooShort (off + 4 + (utf8 e.name).length) buf.length)
  have h₅ : rdU64 buf (off + 4 + (utf8 e.name).length) = .ok e.dataOff :=
    rdLe_of_at hoffAt (by norm_num; omega) (by omega)
  have h₆ := add_of_lt (E := FtsError) (x := off + 4 + (utf8 e.name).length) (y := 8) (by omega)
  have h₇ : rdU64 buf (off + 4 + (utf8 e.name).length + 8) = .ok e.dataLen :=
    rdLe_of_at hlenAt (by norm_num; omega) (by omega)
  have h₈ := add_of_lt (E := FtsError) (x := off + 4 + (utf8 e.name).length + 8) (y := 8) (by omega)
  have h₉ := checkedAdd_of_lt (x := e.dataOff) (y := e.dataLen) (by omega)
    (FtsError.corrupt "file data range overflow")
  have hnot : ¬ e.dataOff + e.dataLen > dataFloor := by omega
  simp only [readEntry, h₁, h₂, h₃, h₄, fromUTF8?_utf8, h₅, h₆, h₇, h₈, h₉, Except.bind, bind, if_neg hnot]
  rw [length_putEntry]
  change Except.ok _ = _
  congr 2
  omega

def body (files : List (String × Bytes)) : Bytes :=
  magic ++ (leBytes 4 formatVersion ++ (leBytes 4 files.length ++
    ((entriesFrom (dataStart files) files).flatMap putEntry ++ files.flatMap Prod.snd)))

theorem write_eq (files : List (String × Bytes)) : write files = body files ++ magic := by
  simp only [write, body, append_assoc]

theorem length_write (files : List (String × Bytes)) : (write files).length = (body files).length + 4 := by
  rw [write_eq, length_append]
  rfl

theorem at_manifest (files : List (String × Bytes)) :
    At (body files) 12 ((entriesFrom (dataStart files) files).flatMap putEntry) := by
  have h := (at_self (body files)).right.right.right.left
  rw [Wire.length_leBytes, Wire.length_leBytes] at h
  exact h

theorem at_data (files : List (String × Bytes)) : At (body files) (dataStart files) (files.flatMap Prod.snd) := by
  have h := (at_self (body files)).right.right.right.right
  rw [length_flatMap_putEntry, Wire.length_leBytes, Wire.length_leBytes] at h
  exact h

theorem readHeader_write (files : List (String × Bytes)) :
    readHeader (write files) = .ok ⟨formatVersion, files.length % 2 ^ 32, 12⟩ := by
  have hwhole := at_self (write files)
  have hlen : 12 ≤ (body files).length := by
    have hle := (at_manifest files).le
    omega
  have hlength := length_write files
  have h₁ : (slice (write files) 0 4 : Outcome FtsError Bytes) = .ok magic := slice_of_at hwhole.left
  have htail : At (write files) ((write files).length - 4) magic := by
    refine ⟨body files, [], by rw [write_eq, append_nil], ?_⟩
    omega
  have h₂ : (slice (write files) ((write files).length - 4) (write files).length :
      Outcome FtsError Bytes) = .ok magic := by
    have hslice := slice_of_at (E := FtsError) htail
    rwa [show (write files).length - 4 + magic.length = (write files).length by
      rw [hlength]; exact Nat.sub_add_cancel (by omega)] at hslice
  have h₃ : rdU32 (write files) 4 = .ok formatVersion := rdLe_of_at hwhole.right.left (by decide) (by norm_num)
  have h₄ : rdU32 (write files) 8 = .ok (files.length % 2 ^ 32) := by
    have hcount := hwhole.right.right.left
    rw [← leBytes_mod 4 files.length, Wire.length_leBytes] at hcount
    exact rdLe_of_at hcount (Nat.mod_lt _ (by norm_num)) (by norm_num)
  have hshort : ¬ (write files).length < 12 := by omega
  simp only [readHeader, if_neg hshort, h₁, h₂, h₃, h₄, Except.bind, bind, ne_eq, not_true_eq_false, if_false]
  rfl

/-- The files fit: the header counts them, the manifest their names, and the blob is a buffer. -/
structure Fits (files : List (String × Bytes)) : Prop where
  count : files.length < 2 ^ 32
  names : ∀ f ∈ files, (utf8 f.1).length < 2 ^ 32
  size : (write files).length < 2 ^ 64

theorem names_entriesFrom {cursor : ℕ} (h : ∀ f ∈ files, (utf8 f.1).length < 2 ^ 32) :
    ∀ e ∈ entriesFrom cursor files, (utf8 e.name).length < 2 ^ 32 := by
  induction files generalizing cursor with
  | nil => exact fun e he => by cases he
  | cons f files ih =>
    intro e he
    rcases mem_cons.1 he with rfl | he
    · exact h f (mem_cons_self ..)
    · exact ih (fun f' hf' => h f' (mem_cons_of_mem _ hf')) e he

theorem le_of_describes {m : List ManifestEntry}
    (h : List.Forall₂ (Describes buf) m files) : ∀ e ∈ m, e.dataOff + e.dataLen ≤ buf.length := by
  induction h with
  | nil => exact fun e he => by cases he
  | cons hf _ ih =>
    intro e he
    rcases mem_cons.1 he with rfl | he
    · obtain ⟨-, hlen, hdata⟩ := hf
      exact hlen ▸ hdata.le
    · exact ih e he

theorem readManifest_write (h : Fits files) : readManifest utf8Error (write files) ⟨formatVersion, files.length, 12⟩ =
      .ok (entriesFrom (dataStart files) files) := by
  have hlength := length_write files
  have hsize := h.size
  have hdescribes := describes_entriesFrom (at_data files)
  have hmanifest : At (write files) 12 ((entriesFrom (dataStart files) files).flatMap putEntry) := by
    rw [write_eq]
    exact (at_manifest files).append magic
  have hentry : ∀ e ∈ entriesFrom (dataStart files) files, ∀ off, At (write files) off (putEntry e) →
      readEntry utf8Error (write files) ((write files).length - 4) off = .ok (e, off + (putEntry e).length) := by
    intro e he off hat
    have hle := le_of_describes hdescribes e he
    exact readEntry_of_at hat (names_entriesFrom h.names e he) (by omega) (by omega) hsize
  have htimes := times_of_at hentry hmanifest
  rw [length_entriesFrom] at htimes
  simp only [readManifest, htimes, Except.bind, bind]
  rfl

def contents (buf : Bytes) (m : List ManifestEntry) : Outcome FtsError (List (String × Bytes)) :=
  m.mapM fun e => do
    let bytes ← slice buf e.dataOff (e.dataOff + e.dataLen)
    pure (e.name, bytes)

theorem contents_of_describes {m : List ManifestEntry}
    (h : List.Forall₂ (Describes buf) m files) : contents buf m = .ok files := by
  refine Fallible.mapM_eq_ok_iff.2 (h.imp fun e f hf => ?_)
  obtain ⟨hname, hlen, hat⟩ := hf
  have hslice := slice_of_at (E := FtsError) hat
  rw [hlen, hslice, hname]
  rfl

end RoundTrip

/-- **Files are read as they were written, and ranges lie in the buffer.**  What is written of files that
fit has a manifest that gives back their names and, at its ranges, their bytes; in any bytes whatever an
accepted manifest has ranges that end before the trailing magic, with no overflow, and opening is not
stopped. -/
theorem manifest_exact {D : Type} (dir : Directory D) (utf8Error : Bytes → String) :
    (∀ files, Fits files → ∃ h m, readHeader (write files) = .ok h ∧
      readManifest utf8Error (write files) h = .ok m ∧ contents (write files) m = .ok files) ∧
    ∀ buf, (∀ h m, readHeader buf = .ok h → readManifest utf8Error buf h = .ok m → ∀ e ∈ m, InRange buf e) ∧
      openDirectory dir utf8Error buf ≠ .error .panic := by
  refine ⟨fun files hfits => ?_, fun buf => ⟨fun h m _ hm => ?_, (safe_openDirectory utf8Error buf dir).1⟩⟩
  · refine ⟨_, entriesFrom (dataStart files) files, readHeader_write files, ?_, ?_⟩
    · rw [Nat.mod_eq_of_lt hfits.count]
      exact readManifest_write hfits
    · refine contents_of_describes (describes_entriesFrom ?_)
      rw [write_eq]
      exact (at_data files).append magic
  · exact (safe_readManifest utf8Error buf h).2 m hm

theorem fits_small : Fits [("a", [1, 2]), ("", [])] := by
  constructor <;> decide

/-- A file with two bytes, and one without a name or bytes. -/
theorem manifest_exact_small : ∃ h m, readHeader (write [("a", [1, 2]), ("", [])]) = .ok h ∧
      readManifest (fun _ => "") (write [("a", [1, 2]), ("", [])]) h = .ok m ∧
      contents (write [("a", [1, 2]), ("", [])]) m = .ok [("a", [1, 2]), ("", [])] :=
  (manifest_exact (⟨(), fun _ _ _ => .ok ()⟩ : Directory Unit) fun _ => "").1 _ fits_small

/-! ### Ranges in the header, and too many files -/

def crafted : Bytes := magic ++ (leBytes 4 formatVersion ++ (leBytes 4 1 ++ (putEntry ⟨"", 0, 4⟩ ++ magic)))

theorem readManifest_crafted (utf8Error : Bytes → String) :
    readManifest utf8Error crafted ⟨formatVersion, 1, 12⟩ = .ok [⟨"", 0, 4⟩] := by
  have hat : At crafted 12 (putEntry ⟨"", 0, 4⟩) := by
    have h := (at_self crafted).right.right.right.left
    rw [Wire.length_leBytes, Wire.length_leBytes] at h
    exact h
  have hentry : readEntry utf8Error crafted (crafted.length - 4) 12 =
      .ok (⟨"", 0, 4⟩, 12 + (putEntry ⟨"", 0, 4⟩).length) :=
    readEntry_of_at hat (by decide) (by decide) (by decide) (by decide)
  simp only [readManifest, times, hentry, Except.bind, bind]
  rfl

def manyFiles (n : ℕ) : List (String × Bytes) := (GraphTopo.wideNodes n).map fun name => (name, [])

theorem not_read_of_mod {n : ℕ} (hpos : 0 < n) (hmod : n % 2 ^ 32 = 0) (utf8Error : Bytes → String) :
    ¬ ∃ h m, readHeader (write (manyFiles n)) = .ok h ∧ readManifest utf8Error (write (manyFiles n)) h = .ok m ∧
      contents (write (manyFiles n)) m = .ok (manyFiles n) := by
  rintro ⟨h, m, hh, hm, hcontents⟩
  have hlength : (manyFiles n).length = n := by
    rw [manyFiles, length_map, GraphTopo.wideNodes, length_map, length_range]
  rw [readHeader_write, hlength, hmod] at hh
  cases hh
  cases hm
  cases hfiles : manyFiles n with
  | nil =>
    rw [hfiles, length_nil] at hlength
    omega
  | cons f files =>
    rw [hfiles] at hcontents
    cases hcontents

/-- **A range in the header is accepted**, and of `2 ^ 32` files none is read. -/
theorem manifest_before_data : (∃ h m, readHeader crafted = .ok h ∧ readManifest (fun _ => "") crafted h = .ok m ∧
      ∃ e ∈ m, e.dataOff + e.dataLen < h.manifestOffset) ∧ ¬ ∃ h m, readHeader (write (manyFiles (2 ^ 32))) = .ok h ∧
      readManifest (fun _ => "") (write (manyFiles (2 ^ 32))) h = .ok m ∧
      contents (write (manyFiles (2 ^ 32))) m = .ok (manyFiles (2 ^ 32)) :=
  ⟨⟨⟨formatVersion, 1, 12⟩, _, rfl, readManifest_crafted _, _, mem_singleton_self _, by decide⟩,
    not_read_of_mod (by norm_num) (by norm_num) _⟩

end FtsFile
