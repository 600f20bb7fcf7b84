/-
**The graph sidecar: a CSR topology as bytes.**

`CsrGraph::to_bytes` writes the magic `KYCS`, a version, two reserved bytes and a checksum, and then
the payload: four counts, the node ids and the edge types as length-prefixed strings, and six arrays
of `u32`.
-/

import Pensieve.CsrTraverse
import Pensieve.Wire

namespace GraphTopo

open List
open Wire

/-! ### The writer -/

inductive TopoError where
  | corrupt (message : String)
  | unsupportedVersion (version : ℕ)
  | checksumMismatch
  deriving DecidableEq

/-- `KYCS`. -/
def magic : Bytes := [75, 89, 67, 83]

def version : ℕ := 1

def fnv1a (bytes : Bytes) : UInt64 :=
  bytes.foldl (fun h b => (h ^^^ b.toUInt64) * 0x00000100000001b3) 0xcbf29ce484222325

/-- A `u32` in four bytes; a longer number is cut off. -/
def putU32 (v : ℕ) : Bytes := leBytes 4 v

def utf8 (s : String) : Bytes := s.toUTF8.data.toList

def putStr (s : String) : Bytes := putU32 (utf8 s).length ++ utf8 s

def putU32Slice (v : List ℕ) : Bytes := v.flatMap putU32

def putArrays (g : CsrGraph) : Bytes :=
  putU32Slice g.outOffsets ++ (putU32Slice g.outTargets ++ (putU32Slice g.outEtype ++
    (putU32Slice g.inOffsets ++ (putU32Slice g.inSources ++ putU32Slice g.inEtype))))

def payload (g : CsrGraph) : Bytes :=
  putU32 g.ids.length ++ (putU32 g.etypes.length ++ (putU32 g.outTargets.length ++
    (putU32 g.inSources.length ++ (g.ids.flatMap putStr ++ (g.etypes.flatMap putStr ++ putArrays g)))))

def header (reserved body : Bytes) : Bytes :=
  magic ++ (leBytes 2 version ++ (reserved ++ leBytes 8 (fnv1a body).toNat))

def toBytes (g : CsrGraph) : Bytes := header (leBytes 2 0) (payload g) ++ payload g

/-! ### The reader -/

def takeBytes (n : ℕ) : Decoder TopoError Bytes := take (.corrupt "read past end") n

def u32 : Decoder TopoError ℕ := do
  let s ← takeBytes 4
  pure (leValue s)

def string : Decoder TopoError String := do
  let len ← u32
  let s ← takeBytes len
  match String.fromUTF8? ⟨s.toArray⟩ with
  | some str => pure str
  | none => throw (.corrupt "invalid utf8 id")

def u32Vec (n : ℕ) : Decoder TopoError (List ℕ) := many n u32

/-- `id_to_idx` as the reader fills it: a later occurrence of an id overwrites an earlier one. -/
def indexIds (ids : List String) : String → Option ℕ :=
  ids.zipIdx.foldl (fun m p => Function.update m p.1 (some (asU32 p.2))) fun _ => none

def readArrays (nNodes nOut nIn : ℕ) (ids etypes : List String) : Decoder TopoError CsrGraph := do
  let outOffsets ← u32Vec (nNodes + 1)
  let outTargets ← u32Vec nOut
  let outEtype ← u32Vec nOut
  let inOffsets ← u32Vec (nNodes + 1)
  let inSources ← u32Vec nIn
  let inEtype ← u32Vec nIn
  pure
    { ids, idToIdx := indexIds ids, etypes, outOffsets, outTargets, outEtype, inOffsets, inSources, inEtype }

def readGraph : Decoder TopoError CsrGraph := do
  let nNodes ← u32
  let nEtypes ← u32
  let nOut ← u32
  let nIn ← u32
  let ids ← many nNodes string
  let etypes ← many nEtypes string
  readArrays nNodes nOut nIn ids etypes

def fromBytes (bytes : Bytes) : Except TopoError CsrGraph :=
  if bytes.length < 16 then .error (.corrupt "header truncated")
  else if bytes.take 4 ≠ magic then .error (.corrupt "bad magic")
  else
    let v := leValue ((bytes.drop 4).take 2)
    if v ≠ version then .error (.unsupportedVersion v)
    else
      let storedCk := leValue ((bytes.drop 8).take 8)
      let body := bytes.drop 16
      if (fnv1a body).toNat ≠ storedCk then .error .checksumMismatch
      else (readGraph body).map Prod.fst

/-! ### Numbers, strings and arrays -/

theorem reads_u32 {v : ℕ} (h : v < 2 ^ 32) : Reads u32 v (putU32 v) := by
  have hlen : (putU32 v).length = 4 := length_leBytes 4 v
  have htake : Reads (takeBytes 4) (putU32 v) (putU32 v) := by
    have := Reads.take (TopoError.corrupt "read past end") (putU32 v)
    rwa [hlen] at this
  have hval : leValue (putU32 v) = v := leValue_leBytes (by omega)
  have hread : Reads u32 (leValue (putU32 v)) (putU32 v) := htake.bind_pure leValue
  rw [hval] at hread
  exact hread

theorem sound_u32 : Sound u32 fun v b => b = putU32 v ∧ v < 2 ^ 32 := by
  refine ((Sound.take _ 4).bind fun s => Sound.pure (leValue s)).mono ?_
  rintro v b ⟨s, b₁, b₂, rfl, ⟨rfl, hlen⟩, rfl, rfl⟩
  have hlt := leValue_lt b₁
  rw [hlen] at hlt
  refine ⟨?_, by omega⟩
  rw [append_nil, putU32, leBytes_leValue_of_length hlen]

theorem fromUTF8?_utf8 (s : String) : String.fromUTF8? ⟨(utf8 s).toArray⟩ = some s := by
  have hbytes : (⟨(utf8 s).toArray⟩ : ByteArray) = s.toByteArray := by simp [utf8]
  rw [hbytes, String.fromUTF8?, dif_pos s.isValidUTF8]
  rfl

theorem utf8_of_fromUTF8? {b : Bytes} {s : String} (h : String.fromUTF8? ⟨b.toArray⟩ = some s) : utf8 s = b := by
  unfold String.fromUTF8? at h
  split at h
  · cases h
    rfl
  · cases h

theorem reads_string {s : String} (h : (utf8 s).length < 2 ^ 32) : Reads string s (putStr s) := by
  have hbody : Reads (do
      let b ← takeBytes (utf8 s).length
      match String.fromUTF8? ⟨b.toArray⟩ with
      | some str => pure str
      | none => throw (.corrupt "invalid utf8 id")) s (utf8 s ++ []) := by
    refine (Reads.take _ (utf8 s)).bind ?_
    rw [fromUTF8?_utf8]
    exact Reads.pure s
  rw [append_nil] at hbody
  exact (reads_u32 h).bind hbody

theorem sound_string : Sound string fun s b => b = putStr s ∧ (utf8 s).length < 2 ^ 32 := by
  have hstr : ∀ b : Bytes, Sound (match String.fromUTF8? ⟨b.toArray⟩ with
      | some str => pure str
      | none => throw (.corrupt "invalid utf8 id") : Decoder TopoError String)
      fun s r => utf8 s = b ∧ r = [] := by
    intro b
    cases hs : String.fromUTF8? ⟨b.toArray⟩ with
    | none => exact Sound.throw _ _
    | some str =>
      refine (Sound.pure str).mono ?_
      rintro s r ⟨rfl, rfl⟩
      exact ⟨utf8_of_fromUTF8? hs, rfl⟩
  refine (sound_u32.bind fun len => (Sound.take _ len).bind hstr).mono ?_
  rintro s b ⟨len, b₁, b₂, rfl, ⟨rfl, hlen⟩, a, b₃, b₄, rfl, ⟨rfl, hl⟩, rfl, rfl⟩
  rw [← hl] at hlen ⊢
  exact ⟨by rw [append_nil, putStr], hlen⟩

theorem reads_u32Vec {v : List ℕ} {n : ℕ} (hn : v.length = n) (hv : ∀ x ∈ v, x < 2 ^ 32) :
    Reads (u32Vec n) v (putU32Slice v) := by
  subst hn
  exact Reads.many fun x hx => reads_u32 (hv x hx)

theorem sound_u32Vec (n : ℕ) : Sound (u32Vec n) fun v b => b = putU32Slice v ∧ v.length = n ∧ ∀ x ∈ v, x < 2 ^ 32 :=
  Sound.many sound_u32 n

/-! ### The payload -/

/-- Arrays of `u32`s that have the lengths which the counts give them. -/
structure ArraysFit (g : CsrGraph) (nNodes nOut nIn : ℕ) : Prop where
  outOffsets_length : g.outOffsets.length = nNodes + 1
  outTargets_length : g.outTargets.length = nOut
  outEtype_length : g.outEtype.length = nOut
  inOffsets_length : g.inOffsets.length = nNodes + 1
  inSources_length : g.inSources.length = nIn
  inEtype_length : g.inEtype.length = nIn
  outOffsets_lt : ∀ x ∈ g.outOffsets, x < 2 ^ 32
  outTargets_lt : ∀ x ∈ g.outTargets, x < 2 ^ 32
  outEtype_lt : ∀ x ∈ g.outEtype, x < 2 ^ 32
  inOffsets_lt : ∀ x ∈ g.inOffsets, x < 2 ^ 32
  inSources_lt : ∀ x ∈ g.inSources, x < 2 ^ 32
  inEtype_lt : ∀ x ∈ g.inEtype, x < 2 ^ 32

/-- The graphs that the format can hold: everything that is written as a `u32` is one, arrays have
the lengths that the counts give them, and the lookup table is the one that the reader builds. -/
structure Fits (g : CsrGraph) : Prop where
  ids_lt : g.ids.length < 2 ^ 32
  etypes_lt : g.etypes.length < 2 ^ 32
  out_lt : g.outTargets.length < 2 ^ 32
  in_lt : g.inSources.length < 2 ^ 32
  id_bytes : ∀ s ∈ g.ids, (utf8 s).length < 2 ^ 32
  etype_bytes : ∀ s ∈ g.etypes, (utf8 s).length < 2 ^ 32
  arrays : ArraysFit g g.ids.length g.outTargets.length g.inSources.length
  index : g.idToIdx = indexIds g.ids

variable {g : CsrGraph}

theorem reads_arrays {nNodes nOut nIn : ℕ} (h : ArraysFit g nNodes nOut nIn) :
    Reads (readArrays nNodes nOut nIn g.ids g.etypes) { g with idToIdx := indexIds g.ids }
      (putArrays g) := by
  refine (reads_u32Vec h.outOffsets_length h.outOffsets_lt).bind ?_
  refine (reads_u32Vec h.outTargets_length h.outTargets_lt).bind ?_
  refine (reads_u32Vec h.outEtype_length h.outEtype_lt).bind ?_
  refine (reads_u32Vec h.inOffsets_length h.inOffsets_lt).bind ?_
  refine (reads_u32Vec h.inSources_length h.inSources_lt).bind ?_
  exact (reads_u32Vec h.inEtype_length h.inEtype_lt).bind_pure _

theorem reads_payload (h : Fits g) : Reads readGraph g (payload g) := by
  have hread : Reads readGraph { g with idToIdx := indexIds g.ids } (payload g) := by
    refine (reads_u32 h.ids_lt).bind ?_
    refine (reads_u32 h.etypes_lt).bind ?_
    refine (reads_u32 h.out_lt).bind ?_
    refine (reads_u32 h.in_lt).bind ?_
    refine (Reads.many fun s hs => reads_string (h.id_bytes s hs)).bind ?_
    refine (Reads.many fun s hs => reads_string (h.etype_bytes s hs)).bind ?_
    exact reads_arrays h.arrays
  have heq : { g with idToIdx := indexIds g.ids } = g := by rw [← h.index]
  rw [heq] at hread
  exact hread

theorem sound_arrays (nNodes nOut nIn : ℕ) (ids etypes : List String) :
    Sound (readArrays nNodes nOut nIn ids etypes) fun g b => b = putArrays g ∧
      (g.ids = ids ∧ g.etypes = etypes ∧ g.idToIdx = indexIds ids) ∧ ArraysFit g nNodes nOut nIn := by
  refine ((sound_u32Vec (nNodes + 1)).bind fun outOffsets => (sound_u32Vec nOut).bind fun outTargets =>
    (sound_u32Vec nOut).bind fun outEtype => (sound_u32Vec (nNodes + 1)).bind fun inOffsets =>
    (sound_u32Vec nIn).bind fun inSources => (sound_u32Vec nIn).bind fun inEtype =>
    Sound.pure _).mono ?_
  rintro g b ⟨outOffsets, b₁, r₁, e₁, ⟨f₁, hoo, hoov⟩, outTargets, b₂, r₂, e₂, ⟨f₂, hot, hotv⟩,
    outEtype, b₃, r₃, e₃, ⟨f₃, hoe, hoev⟩, inOffsets, b₄, r₄, e₄, ⟨f₄, hio, hiov⟩, inSources, b₅, r₅,
    e₅, ⟨f₅, his, hisv⟩, inEtype, b₆, r₆, e₆, ⟨f₆, hie, hiev⟩, hg, hr⟩
  subst hg
  refine ⟨?_, ⟨rfl, rfl, rfl⟩, hoo, hot, hoe, hio, his, hie, hoov, hotv, hoev, hiov, hisv, hiev⟩
  rw [e₁, e₂, e₃, e₄, e₅, e₆, f₁, f₂, f₃, f₄, f₅, f₆, hr, append_nil, putArrays]

theorem sound_payload : Sound readGraph fun g b => b = payload g ∧ Fits g := by
  refine (sound_u32.bind fun nNodes => sound_u32.bind fun nEtypes => sound_u32.bind fun nOut =>
    sound_u32.bind fun nIn => (Sound.many sound_string nNodes).bind fun ids =>
    (Sound.many sound_string nEtypes).bind fun etypes =>
    sound_arrays nNodes nOut nIn ids etypes).mono ?_
  rintro g b ⟨nNodes, b₁, r₁, e₁, ⟨f₁, hNodes⟩, nEtypes, b₂, r₂, e₂, ⟨f₂, hEtypes⟩, nOut, b₃, r₃, e₃,
    ⟨f₃, hOut⟩, nIn, b₄, r₄, e₄, ⟨f₄, hIn⟩, ids, b₅, r₅, e₅, ⟨f₅, hids, hidb⟩, etypes, b₆, r₆, e₆,
    ⟨f₆, het, hetb⟩, hr, ⟨rfl, rfl, hindex⟩, harr⟩
  obtain rfl := hids
  obtain rfl := het
  obtain rfl := harr.outTargets_length
  obtain rfl := harr.inSources_length
  refine ⟨?_, hNodes, hEtypes, hOut, hIn, hidb, hetb, harr, hindex⟩
  rw [e₁, e₂, e₃, e₄, e₅, e₆, f₁, f₂, f₃, f₄, f₅, f₆, hr, payload]

/-! ### The header -/

theorem cut_header {bytes : Bytes} : bytes = (bytes.take 4 ++ ((bytes.drop 4).take 2 ++ ((bytes.drop 6).take 2 ++
      (bytes.drop 8).take 8))) ++ bytes.drop 16 := by
  have h₁ := take_append_drop 8 (bytes.drop 8)
  have h₂ := take_append_drop 2 (bytes.drop 6)
  have h₃ := take_append_drop 2 (bytes.drop 4)
  rw [drop_drop] at h₁ h₂ h₃
  simp only [append_assoc]
  rw [h₁, h₂, h₃, take_append_drop]

theorem length_header (reserved body : Bytes) (h : reserved.length = 2) : (header reserved body).length = 16 := by
  simp [header, magic, h]

theorem fnv1a_lt (body : Bytes) : (fnv1a body).toNat < 256 ^ 8 := (fnv1a body).toNat_lt

theorem fromBytes_header (reserved body : Bytes) (h : reserved.length = 2) :
    fromBytes (header reserved body ++ body) = (readGraph body).map Prod.fst := by
  have hlen := length_header reserved body h
  obtain ⟨r₀, r₁, rfl⟩ := length_eq_two.mp h
  have hck : leValue (((header [r₀, r₁] body ++ body).drop 8).take 8) = (fnv1a body).toNat := by
    rw [← leValue_leBytes (fnv1a_lt body)]
    rfl
  have hdrop : (header [r₀, r₁] body ++ body).drop 16 = body := drop_left' hlen
  have hversion : leValue (((header [r₀, r₁] body ++ body).drop 4).take 2) = version := by rfl
  have hmagic : (header [r₀, r₁] body ++ body).take 4 = magic := by rfl
  unfold fromBytes
  rw [if_neg (by rw [length_append]; omega), if_neg (by rw [hmagic]; simp)]
  simp only [hversion, hck, hdrop, ne_eq, not_true_eq_false, if_false]

/-- **The accepted byte strings** are those that are written for a graph that fits, up to the two
reserved bytes and to bytes after the payload. -/
theorem fromBytes_eq_ok_iff {bytes : Bytes} :
    fromBytes bytes = .ok g ↔ Fits g ∧ ∃ reserved rest, reserved.length = 2 ∧
      bytes = header reserved (payload g ++ rest) ++ (payload g ++ rest) := by
  constructor
  · intro h
    unfold fromBytes at h
    split at h
    · cases h
    · rename_i hlen
      split at h
      · cases h
      · rename_i hmagic
        simp only at h
        split at h
        · cases h
        · rename_i hversion
          split at h
          · cases h
          · rename_i hck
            rw [ne_eq, not_not] at hmagic hversion hck
            obtain ⟨rest, hr⟩ : ∃ rest, readGraph (bytes.drop 16) = .ok (g, rest) := by
              cases hr : readGraph (bytes.drop 16) with
              | error e =>
                rw [hr] at h
                cases h
              | ok r =>
                rw [hr] at h
                cases h
                exact ⟨r.2, rfl⟩
            obtain ⟨b, hbody, rfl, hfits⟩ := sound_payload _ g rest hr
            -- the version and the checksum are the bytes of their values
            have hv : (bytes.drop 4).take 2 = leBytes 2 version := by
              have hl : ((bytes.drop 4).take 2).length = 2 := by
                rw [length_take, length_drop]
                omega
              rw [← hversion, leBytes_leValue_of_length hl]
            have hc : (bytes.drop 8).take 8 = leBytes 8 (fnv1a (bytes.drop 16)).toNat := by
              have hl : ((bytes.drop 8).take 8).length = 8 := by
                rw [length_take, length_drop]
                omega
              rw [hck, leBytes_leValue_of_length hl]
            refine ⟨hfits, (bytes.drop 6).take 2, rest, ?_, ?_⟩
            · rw [length_take, length_drop]
              omega
            · rw [← hbody, header, ← hmagic, ← hv, ← hc]
              exact cut_header
  · rintro ⟨hfits, reserved, rest, hres, rfl⟩
    rw [fromBytes_header _ _ hres, reads_payload hfits]
    rfl

section Build

variable {n : ℕ} {triples : List Triple}

theorem length_foldl_place (rest : List Triple) (f : Fill) :
    (rest.foldl Fill.place f).targets.length = f.targets.length ∧
      (rest.foldl Fill.place f).etype.length = f.etype.length := by
  induction rest generalizing f with
  | nil => exact ⟨rfl, rfl⟩
  | cons t rest ih =>
    rw [foldl_cons, (ih (f.place t)).1, (ih (f.place t)).2]
    simp [Fill.place]

theorem mem_foldl_place (rest : List Triple) (f : Fill) :
    (∀ x ∈ (rest.foldl Fill.place f).targets, x ∈ f.targets ∨ ∃ t ∈ rest, x = t.2.1) ∧
      ∀ x ∈ (rest.foldl Fill.place f).etype, x ∈ f.etype ∨ ∃ t ∈ rest, x = t.2.2 := by
  induction rest generalizing f with
  | nil => exact ⟨fun x hx => .inl hx, fun x hx => .inl hx⟩
  | cons t rest ih =>
    obtain ⟨htargets, hetype⟩ := ih (f.place t)
    constructor
    · intro x hx
      rcases htargets x hx with hx | ⟨u, hu, rfl⟩
      · rcases mem_or_eq_of_mem_set hx with hx | rfl
        · exact .inl hx
        · exact .inr ⟨t, .head _, rfl⟩
      · exact .inr ⟨u, .tail _ hu, rfl⟩
    · intro x hx
      rcases hetype x hx with hx | ⟨u, hu, rfl⟩
      · rcases mem_or_eq_of_mem_set hx with hx | rfl
        · exact .inl hx
        · exact .inr ⟨t, .head _, rfl⟩
      · exact .inr ⟨u, .tail _ hu, rfl⟩

theorem length_buildCsr (hn : ∀ t ∈ triples, t.1 < n) (hlt : triples.length < 2 ^ 32) :
    (buildCsr n triples).2.1.length = triples.length ∧ (buildCsr n triples).2.2.length = triples.length := by
  simp only [buildCsr, getLastD_offsets hn hlt]
  obtain ⟨h₁, h₂⟩ := length_foldl_place triples ⟨List.replicate triples.length 0,
    List.replicate triples.length 0, prefixSums n (countRows n triples)⟩
  exact ⟨h₁.trans (length_replicate ..), h₂.trans (length_replicate ..)⟩

theorem mem_buildCsr {x : ℕ} : (x ∈ (buildCsr n triples).2.1 → x = 0 ∨ ∃ t ∈ triples, x = t.2.1) ∧
      (x ∈ (buildCsr n triples).2.2 → x = 0 ∨ ∃ t ∈ triples, x = t.2.2) := by
  simp only [buildCsr]
  obtain ⟨h₁, h₂⟩ := mem_foldl_place triples ⟨List.replicate ((prefixSums n (countRows n triples)).getLastD 0) 0,
      List.replicate ((prefixSums n (countRows n triples)).getLastD 0) 0,
      prefixSums n (countRows n triples)⟩
  exact ⟨fun hx => (h₁ x hx).imp_left eq_of_mem_replicate, fun hx => (h₂ x hx).imp_left eq_of_mem_replicate⟩

theorem offsets_lt (hn : ∀ t ∈ triples, t.1 < n) (hlt : triples.length < 2 ^ 32) :
    ∀ x ∈ (buildCsr n triples).1, x < 2 ^ 32 := by
  intro x hx
  obtain ⟨hlen, hoff⟩ := buildCsr_offsets hn hlt
  obtain ⟨i, hi, rfl⟩ := mem_iff_getElem.mp hx
  have hrank := hoff i (by omega)
  rw [getD_eq_getElem _ _ hi] at hrank
  have hle := rank_le_length triples i
  omega

end Build

theorem indexIds_of_nodup {ids : List String} (hnd : ids.Nodup) (x : String) :
    indexIds ids x = if x ∈ ids then some (asU32 (ids.idxOf x)) else none := by
  -- the reader has inserted `done`, at the positions below `done.length`
  have key : ∀ (rest done : List String) (m : String → Option ℕ), (done ++ rest).Nodup →
      (∀ y : String, m y = if y ∈ done then some (asU32 (done.idxOf y)) else none) →
      ∀ y : String, (rest.zipIdx done.length).foldl
        (fun (m : String → Option ℕ) p => Function.update m p.1 (some (asU32 p.2))) m y =
          if y ∈ done ++ rest then some (asU32 ((done ++ rest).idxOf y)) else none := by
    intro rest
    induction rest with
    | nil =>
      intro done m _ hm y
      simpa using hm y
    | cons r rest ih =>
      intro done m hnd hm y
      have hr : r ∉ done := by
        rw [nodup_append] at hnd
        exact fun hmem => hnd.2.2 r hmem r (.head _) rfl
      have hstep := ih (done ++ [r]) (Function.update m r (some (asU32 done.length)))
        (by simpa using hnd) (fun z => ?_) y
      · simpa using hstep
      · by_cases hz : z = r
        · subst hz
          simp [idxOf_append, hr]
        · rw [Function.update_of_ne hz, hm z]
          by_cases hmem : z ∈ done
          · simp [hmem, idxOf_append_of_mem hmem]
          · simp [hmem, hz]
  simpa [indexIds] using key ids [] (fun _ => none) (by simpa using hnd) (by simp) x

theorem mem_keepEdges_etypes {nodes : List String} {edges : List EdgeRow} {x : String}
    (hx : x ∈ (keepEdges nodes edges).etypes.names) : ∃ e ∈ edges, e.2.2 = x := by
  have key : ∀ (rest : List EdgeRow) (k : Kept), x ∈ (rest.foldl (Kept.add (nodeDict nodes).index) k).etypes.names →
        x ∈ k.etypes.names ∨ ∃ e ∈ rest, e.2.2 = x := by
    intro rest
    induction rest with
    | nil => exact fun k hk => .inl hk
    | cons e rest ih =>
      intro k hk
      rcases ih _ hk with hk | ⟨e', he', rfl⟩
      · -- the edge interns its own type, or nothing at all
        unfold Kept.add at hk
        split at hk
        · unfold Dict.intern at hk
          split at hk
          · exact .inl hk
          · rcases mem_append.mp hk with hk | hk
            · exact .inl hk
            · exact .inr ⟨e, .head _, (mem_singleton.mp hk).symm⟩
        · exact .inl hk
      · exact .inr ⟨e', .tail _ he', rfl⟩
  rcases key edges _ hx with h | h
  · exact absurd h (not_mem_nil)
  · exact h

theorem buildCsr_fits {n : ℕ} {triples : List Triple} (hn : ∀ t ∈ triples, t.1 < n)
    (hlt : triples.length < 2 ^ 32) (hv : ∀ t ∈ triples, t.2.1 < 2 ^ 32 ∧ t.2.2 < 2 ^ 32) :
    (∀ x ∈ (buildCsr n triples).1, x < 2 ^ 32) ∧ (∀ x ∈ (buildCsr n triples).2.1, x < 2 ^ 32) ∧
      ∀ x ∈ (buildCsr n triples).2.2, x < 2 ^ 32 := by
  refine ⟨offsets_lt hn hlt, fun x hx => ?_, fun x hx => ?_⟩
  · rcases mem_buildCsr.1 hx with rfl | ⟨t, ht, rfl⟩
    · omega
    · exact (hv t ht).1
  · rcases mem_buildCsr.2 hx with rfl | ⟨t, ht, rfl⟩
    · omega
    · exact (hv t ht).2

theorem Dict.WF.index_lt {d : Dict} (h : d.WF) {x : String} {i : ℕ} (hi : d.index x = some i) : i < 2 ^ 32 := by
  obtain ⟨-, rfl⟩ := h.index_eq_some.mp hi
  exact Nat.mod_lt _ (by omega)

theorem fits_build {nodes : List String} {edges : List EdgeRow}
    (hnodes : nodes.dedup.length < 2 ^ 32)
    (hedges : (edges.countP fun e => decide (e.1 ∈ nodes ∧ e.2.1 ∈ nodes)) < 2 ^ 32)
    (hids : ∀ x ∈ nodes, (utf8 x).length < 2 ^ 32)
    (htypes : ∀ e ∈ edges, (utf8 e.2.2).length < 2 ^ 32) : Fits (CsrGraph.build nodes edges) := by
  have hinv := keepEdges_inv nodes edges
  have hlen : (keepEdges nodes edges).kept.length < 2 ^ 32 := kept_length nodes edges ▸ hedges
  have htriple : ∀ t ∈ (keepEdges nodes edges).kept, t.1 < 2 ^ 32 ∧ t.2.1 < 2 ^ 32 ∧ t.2.2 < 2 ^ 32 := by
    intro t ht
    obtain ⟨e, -, h₁, h₂, h₃⟩ := (hinv.mem t).mp ht
    exact ⟨(nodeDict_wf nodes).index_lt h₁, (nodeDict_wf nodes).index_lt h₂, hinv.etypes.index_lt h₃⟩
  -- both directions are laid out by the same counting sort
  have hout : ∀ t ∈ (keepEdges nodes edges).kept, t.1 < (nodeDict nodes).names.length :=
    fun t ht => (keepEdges_lt ht).1
  have hinn : ∀ t ∈ (keepEdges nodes edges).kept.map fun t => (t.2.1, t.1, t.2.2),
      t.1 < (nodeDict nodes).names.length := by
    intro t ht
    obtain ⟨u, hu, rfl⟩ := mem_map.mp ht
    exact (keepEdges_lt hu).2
  have hlen' : ((keepEdges nodes edges).kept.map fun t => (t.2.1, t.1, t.2.2)).length < 2 ^ 32 := by
    rwa [length_map]
  obtain ⟨hot, hoe⟩ := length_buildCsr hout hlen
  obtain ⟨hit, hie⟩ := length_buildCsr hinn hlen'
  obtain ⟨hoov, hotv, hoev⟩ := buildCsr_fits hout hlen fun t ht => (htriple t ht).2
  obtain ⟨hiov, hitv, hiev⟩ := buildCsr_fits hinn hlen' (by
    intro t ht
    obtain ⟨u, hu, rfl⟩ := mem_map.mp ht
    exact ⟨(htriple u hu).1, (htriple u hu).2.2⟩)
  have hoff := (buildCsr_offsets hout hlen).1
  have hioff := (buildCsr_offsets hinn hlen').1
  have hindex : (nodeDict nodes).index = indexIds (nodeDict nodes).names := by
    funext x
    rw [(nodeDict_wf nodes).index, indexIds_of_nodup (nodeDict_wf nodes).nodup]
  exact
    { ids_lt := by
        rw [← names_length_nodeDict] at hnodes
        exact hnodes
      etypes_lt := lt_of_le_of_lt hinv.types_le hlen
      out_lt := lt_of_eq_of_lt hot hlen
      in_lt := lt_of_eq_of_lt hit hlen'
      id_bytes := fun s hs => hids s (mem_nodeDict.mp hs)
      etype_bytes := by
        intro s hs
        obtain ⟨e, he, rfl⟩ := mem_keepEdges_etypes hs
        exact htypes e he
      arrays := ⟨hoff, rfl, hoe.trans hot.symm, hioff, rfl, hie.trans hit.symm, hoov, hotv, hoev, hiov, hitv, hiev⟩
      index := hindex }

/-! ### The round trip -/

theorem fromBytes_toBytes (h : Fits g) : fromBytes (toBytes g) = .ok g := by
  refine fromBytes_eq_ok_iff.mpr ⟨h, leBytes 2 0, [], length_leBytes 2 0, ?_⟩
  rw [append_nil, toBytes]

/-- **The round trip**: with fewer than `2 ^ 32` distinct nodes, kept edges and bytes of a string, a
built graph is read back from its bytes, and every traversal of what is read has the answers of the
graph that was built. -/
theorem fromBytes_toBytes_build (nodes : List String) (edges : List EdgeRow) (hnodes : nodes.dedup.length < 2 ^ 32)
    (hedges : (edges.countP fun e => decide (e.1 ∈ nodes ∧ e.2.1 ∈ nodes)) < 2 ^ 32)
    (hids : ∀ x ∈ nodes, (utf8 x).length < 2 ^ 32) (htypes : ∀ e ∈ edges, (utf8 e.2.2).length < 2 ^ 32) :
    ∃ g, fromBytes (toBytes (CsrGraph.build nodes edges)) = .ok g ∧ g = CsrGraph.build nodes edges ∧
      (∀ v dir f, g.step v dir f = (CsrGraph.build nodes edges).step v dir f) ∧ (∀ sources k dir etype,
        g.kHop sources k dir etype = (CsrGraph.build nodes edges).kHop sources k dir etype) ∧
      (∀ sources lo hi dir etype, g.varLength sources lo hi dir etype =
        (CsrGraph.build nodes edges).varLength sources lo hi dir etype) ∧
      ∀ s v dir etype, g.shortestPathLen s v dir etype = (CsrGraph.build nodes edges).shortestPathLen s v dir etype :=
  ⟨_, fromBytes_toBytes (fits_build hnodes hedges hids htypes), rfl, fun _ _ _ => rfl,
    fun _ _ _ _ => rfl, fun _ _ _ _ _ => rfl, fun _ _ _ _ => rfl⟩

/-- A repeated id and a dangling edge, and an edge type of no bytes. -/
theorem fromBytes_toBytes_build_small :
    ∃ g, fromBytes (toBytes (CsrGraph.build ["a", "é", "a"] [("a", "é", ""), ("a", "z", "t")])) =
        .ok g ∧ g = CsrGraph.build ["a", "é", "a"] [("a", "é", ""), ("a", "z", "t")] := by
  obtain ⟨g, hg, heq, -⟩ := fromBytes_toBytes_build ["a", "é", "a"] [("a", "é", ""), ("a", "z", "t")]
    (by decide) (by decide) (by decide) (by decide)
  exact ⟨g, hg, heq⟩

end GraphTopo
