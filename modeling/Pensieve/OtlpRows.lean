/-
**The rows of OpenTelemetry exports.**

Each log record and each span becomes a row.  The attributes of its resource, its scope and itself go into columns of
JSON text, but for a few that have columns of their own.
-/

import Pensieve.RedactJson

namespace Otlp

open List
open Redact (Text Value keys insert)

/-! ### Attributes -/

/-- `AnyValue`, without floats and bytes. -/
inductive AnyValue
  | string (s : Text)
  | bool (b : Bool)
  | int (i : ℤ)
  | array (values : List AnyValue)
  | kvlist (pairs : List (Text × AnyValue))

abbrev KeyValue := Text × AnyValue

abbrev Json := Value ℤ

mutual
def anyValueToJson : AnyValue → Json
  | .string s => .string s
  | .bool b => .bool b
  | .int i => .number i
  | .array values => .array (valuesToJson values)
  | .kvlist pairs => .object (insertAll [] pairs)

def valuesToJson : List AnyValue → List Json
  | [] => []
  | v :: vs => anyValueToJson v :: valuesToJson vs

/-- The loop of `keyvalue_to_json`. -/
def insertAll (map : List (Text × Json)) : List KeyValue → List (Text × Json)
  | [] => map
  | (k, v) :: rest => insertAll (insert k (anyValueToJson v) map) rest
end

def keyvalueToJson (pairs : List KeyValue) : Json := .object (insertAll [] pairs)

variable (print : Json → Text) (parse : Text → Option Json)

def anyValueToString : AnyValue → Text
  | .string s => s
  | .bool b => (toString b).toList
  | .int i => (toString i).toList
  | v => print (keyvalueToJson [("_".toList, v)])

def lifted (key : Text) (attrs : List KeyValue) : Option Text :=
  (attrs.filter (·.1 = key)).getLast?.map fun kv => anyValueToString print kv.2

def serviceKey : Text := "service.name".toList

def subjectKey : Text := "pensieve.subject".toList

def tenantKey : Text := "pensieve.tenant".toList

def splitServiceAndJson (attrs : List KeyValue) : Option Text × Text :=
  (lifted print serviceKey attrs, print (keyvalueToJson (attrs.filter (·.1 ∉ [serviceKey]))))

def splitPensieveAttrs (attrs : List KeyValue) : Option Text × Option Text × Text :=
  (lifted print subjectKey attrs, lifted print tenantKey attrs,
    print (keyvalueToJson (attrs.filter (·.1 ∉ [subjectKey, tenantKey]))))

def scopeKey : Text := "_scope".toList

def recordKey : Text := "_record".toList

def merged (root : List (Text × Json)) (scopeAttrs recordAttrs : List KeyValue) : Json :=
  .object (insert recordKey (keyvalueToJson recordAttrs) (insert scopeKey (keyvalueToJson scopeAttrs) root))

def mergeAttrsJson (resourceJson : Text) (scopeAttrs recordAttrs : List KeyValue) : Text :=
  match (parse resourceJson).getD (.object []) with
  | .object root => print (merged root scopeAttrs recordAttrs)
  | v => print v

/-! ### Rows -/

/-- `as i64`, of a `u64`. -/
def asI64 (n : ℕ) : ℤ := if n < 2 ^ 63 then n else n - 2 ^ 64

structure LogRecord where
  timeUnixNano : ℕ
  observedTimeUnixNano : ℕ
  attributes : List KeyValue

structure Span where
  startTimeUnixNano : ℕ
  endTimeUnixNano : ℕ
  attributes : List KeyValue

/-- Records of type `R`; an absent resource or scope has no attributes. -/
structure Scope (R : Type) where
  attributes : List KeyValue
  records : List R

structure Resource (R : Type) where
  attributes : List KeyValue
  scopes : List (Scope R)

structure LogRow where
  ts : Option ℤ
  serviceName : Option Text
  attributesJson : Text

structure TraceRow where
  startTime : Option ℤ
  endTime : Option ℤ
  durationNs : ℤ
  serviceName : Option Text
  subject : Option Text
  tenant : Option Text
  attributesJson : Text
  resourceJson : Text

def timestamp (n : ℕ) : Option ℤ := if n > 0 then some (asI64 n) else none

def logRow (resource scope : List KeyValue) (rec : LogRecord) : LogRow where
  ts := timestamp (if rec.timeUnixNano > 0 then rec.timeUnixNano else rec.observedTimeUnixNano)
  serviceName := (splitServiceAndJson print resource).1
  attributesJson := mergeAttrsJson print parse (splitServiceAndJson print resource).2 scope rec.attributes

def traceRow (resource : List KeyValue) (span : Span) : TraceRow where
  startTime := timestamp span.startTimeUnixNano
  endTime := timestamp span.endTimeUnixNano
  durationNs := asI64 (span.endTimeUnixNano - span.startTimeUnixNano)
  serviceName := (splitServiceAndJson print resource).1
  subject := (splitPensieveAttrs print span.attributes).1
  tenant := (splitPensieveAttrs print span.attributes).2.1
  attributesJson := (splitPensieveAttrs print span.attributes).2.2
  resourceJson := (splitServiceAndJson print resource).2

def requestToRows {R Row : Type} (row : List KeyValue → List KeyValue → R → Row) (req : List (Resource R)) : List Row :=
  req.flatMap fun rs => rs.scopes.flatMap fun ss => ss.records.map (row rs.attributes ss.attributes)

def logRows (req : List (Resource LogRecord)) : List LogRow := requestToRows (logRow print parse) req

def traceRows (req : List (Resource Span)) : List TraceRow := requestToRows (fun resource _ => traceRow print resource) req

/-! ### What is read back -/

mutual
def fromJson : Json → AnyValue
  | .null => .string []
  | .bool b => .bool b
  | .number i => .int i
  | .string s => .string s
  | .array items => .array (fromItems items)
  | .object map => .kvlist (fromFields map)

def fromItems : List Json → List AnyValue
  | [] => []
  | v :: vs => fromJson v :: fromItems vs

def fromFields : List (Text × Json) → List KeyValue
  | [] => []
  | (k, v) :: rest => (k, fromJson v) :: fromFields rest
end

mutual
def Distinct : AnyValue → Prop
  | .array values => DistinctValues values
  | .kvlist pairs => DistinctPairs pairs ∧ (keys pairs).Nodup
  | _ => True

def DistinctValues : List AnyValue → Prop
  | [] => True
  | v :: vs => Distinct v ∧ DistinctValues vs

def DistinctPairs : List KeyValue → Prop
  | [] => True
  | (_, v) :: rest => Distinct v ∧ DistinctPairs rest
end

variable {print : Json → Text} {parse : Text → Option Json} {k : Text} {v : AnyValue} {pairs attrs : List KeyValue}
  {map : List (Text × Json)}

theorem insert_of_notMem {A : Type} {val : A} {map : List (Text × A)} (h : k ∉ keys map) :
    insert k val map = map ++ [(k, val)] := if_neg h

theorem insertAll_eq (hpairs : (keys pairs).Nodup) (hmap : ∀ k ∈ keys pairs, k ∉ keys map) :
    insertAll map pairs = map ++ pairs.map fun kv => (kv.1, anyValueToJson kv.2) := by
  induction pairs generalizing map with
  | nil => simp [insertAll]
  | cons kv rest ih =>
    obtain ⟨k, v⟩ := kv
    simp only [Redact.keys, map_cons, nodup_cons, mem_cons, forall_eq_or_imp] at hpairs hmap
    rw [insertAll, insert_of_notMem hmap.1, ih hpairs.2]
    · simp
    · intro k' hk' hmem
      simp only [Redact.keys, map_append, mem_append, map_cons, map_nil, mem_singleton] at hmem
      rcases hmem with hmem | rfl
      · exact hmap.2 k' hk' hmem
      · exact hpairs.1 hk'

mutual
theorem fromJson_anyValueToJson : ∀ v : AnyValue, Distinct v → fromJson (anyValueToJson v) = v
  | .string s, _ => rfl
  | .bool b, _ => rfl
  | .int i, _ => rfl
  | .array values, h => by
    rw [Distinct] at h
    rw [anyValueToJson, fromJson, fromItems_valuesToJson values h]
  | .kvlist pairs, h => by
    rw [Distinct] at h
    rw [anyValueToJson, fromJson, insertAll_eq h.2 (by simp [Redact.keys]), nil_append, fromFields_map pairs h.1]

theorem fromItems_valuesToJson : ∀ vs : List AnyValue, DistinctValues vs → fromItems (valuesToJson vs) = vs
  | [], _ => rfl
  | v :: vs, h => by
    rw [DistinctValues] at h
    rw [valuesToJson, fromItems, fromJson_anyValueToJson v h.1, fromItems_valuesToJson vs h.2]

theorem fromFields_map : ∀ pairs : List KeyValue, DistinctPairs pairs →
    fromFields (pairs.map fun kv => (kv.1, anyValueToJson kv.2)) = pairs
  | [], _ => rfl
  | (k, v) :: rest, h => by
    rw [DistinctPairs] at h
    rw [map_cons, fromFields, fromJson_anyValueToJson v h.1, fromFields_map rest h.2]
end

structure Unique (attrs : List KeyValue) : Prop where
  nodup : (keys attrs).Nodup
  nested : DistinctPairs attrs

theorem Unique.filter (h : Unique attrs) (p : KeyValue → Bool) : Unique (attrs.filter p) where
  nodup := h.nodup.sublist (filter_sublist.map _)
  nested := by
    have hall : ∀ l : List KeyValue, DistinctPairs l ↔ ∀ kv ∈ l, Distinct kv.2 := fun l => by
      induction l with
      | nil => simp [DistinctPairs]
      | cons kv rest ih => rw [DistinctPairs, ih, forall_mem_cons]
    exact (hall _).2 fun kv hkv => (hall _).1 h.nested kv (mem_of_mem_filter hkv)

def jsonMap (attrs : List KeyValue) : List (Text × Json) := attrs.map fun kv => (kv.1, anyValueToJson kv.2)

theorem Unique.keyvalueToJson (h : Unique attrs) : keyvalueToJson attrs = .object (jsonMap attrs) := by
  rw [Otlp.keyvalueToJson, insertAll_eq h.nodup (by simp [Redact.keys])]
  rfl

theorem Unique.fromFields (h : Unique attrs) : fromFields (jsonMap attrs) = attrs := fromFields_map attrs h.nested

/-! ### Attributes with columns of their own -/

def column (k : Text) (s : Option Text) : List KeyValue := s.toList.map fun s => (k, AnyValue.string s)

def columns (print : Json → Text) (ks : List Text) (attrs : List KeyValue) : List KeyValue :=
  ks.flatMap fun k => column k (lifted print k attrs)

def Plain (ks : List Text) (attrs : List KeyValue) : Prop := ∀ kv ∈ attrs, kv.1 ∈ ks → ∃ s, kv.2 = .string s

theorem lifted_of_mem (h : (keys attrs).Nodup) (hmem : (k, v) ∈ attrs) :
    lifted print k attrs = some (anyValueToString print v) := by
  have hfilter : attrs.filter (·.1 = k) = [(k, v)] := by
    induction attrs with
    | nil => cases hmem
    | cons kv rest ih =>
      simp only [Redact.keys, map_cons, nodup_cons] at h
      rcases mem_cons.1 hmem with rfl | hrest
      · rw [filter_cons_of_pos (by simp), filter_eq_nil_iff.2]
        intro kv' hkv' heq
        exact h.1 (mem_map.2 ⟨kv', hkv', by simpa using heq⟩)
      · rw [filter_cons_of_neg, ih h.2 hrest]
        intro heq
        exact h.1 (mem_map.2 ⟨(k, v), hrest, by simpa using (of_decide_eq_true heq).symm⟩)
  rw [lifted, hfilter]
  rfl

theorem mem_of_lifted {s : Text} (h : lifted print k attrs = some s) : ∃ v, (k, v) ∈ attrs := by
  obtain ⟨⟨k', v⟩, hlast, -⟩ := Option.map_eq_some_iff.1 h
  obtain ⟨hmem, hk⟩ := mem_filter.1 (mem_of_getLast? hlast)
  exact ⟨v, by simpa [← of_decide_eq_true hk] using hmem⟩

theorem columns_perm_iff {ks : List Text} (hks : ks.Nodup) (h : (keys attrs).Nodup) :
    (columns print ks attrs ++ attrs.filter (·.1 ∉ ks)).Perm attrs ↔ Plain ks attrs := by
  have hmem : ∀ {k v}, (k, v) ∈ columns print ks attrs ↔ k ∈ ks ∧ ∃ s, lifted print k attrs = some s ∧ v = .string s := by
    intro k v
    simp only [columns, column, mem_flatMap, mem_map, Option.mem_toList, Prod.mk.injEq]
    grind
  constructor
  · rintro hperm ⟨k, v⟩ hkv hk
    rcases mem_append.1 (hperm.mem_iff.2 hkv) with hcol | hrest
    · obtain ⟨-, s, -, hv⟩ := hmem.1 hcol
      exact ⟨s, hv⟩
    · exact absurd hk (by simpa using (mem_filter.1 hrest).2)
  · intro hplain
    have hnodup : (columns print ks attrs).Nodup := by
      refine nodup_flatMap.2 ⟨fun k _ => ?_, hks.imp fun {k k'} hne => ?_⟩
      · cases hl : lifted print k attrs <;> simp [column]
      · rintro ⟨k₁, v⟩ hk hk'
        obtain ⟨s, -, heq⟩ := mem_map.1 hk
        obtain ⟨s', -, heq'⟩ := mem_map.1 hk'
        exact hne ((Prod.mk.inj heq).1.trans (Prod.mk.inj heq').1.symm)
    have hattrs : attrs.Nodup := h.of_map
    refine (perm_ext_iff_of_nodup ?_ hattrs).2 ?_
    · refine hnodup.append (hattrs.filter _) fun kv hcol hrest => ?_
      exact absurd (hmem.1 hcol).1 (by simpa using (mem_filter.1 hrest).2)
    · rintro ⟨k, v⟩
      rw [mem_append, hmem, mem_filter]
      constructor
      · rintro (⟨hk, s, hs, rfl⟩ | ⟨hkv, -⟩)
        · obtain ⟨v, hkv⟩ := mem_of_lifted hs
          obtain ⟨s', rfl⟩ := hplain _ hkv hk
          rw [lifted_of_mem h hkv] at hs
          obtain rfl : s' = s := Option.some.inj hs
          exact hkv
        · exact hkv
      · intro hkv
        by_cases hk : k ∈ ks
        · obtain ⟨s, rfl⟩ := hplain _ hkv hk
          exact .inl ⟨hk, s, lifted_of_mem h hkv, rfl⟩
        · exact .inr ⟨hkv, by simpa using hk⟩

/-! ### Nothing is lost -/

def Kept (n : ℕ) (ts : Option ℤ) : Prop := ts = if 0 < n ∧ n < 2 ^ 63 then some (n : ℤ) else none

def LogTime (rec : LogRecord) : ℕ := if rec.timeUnixNano > 0 then rec.timeUnixNano else rec.observedTimeUnixNano

def LogLossless (parse : Text → Option Json) (resource scope : List KeyValue) (rec : LogRecord) (row : LogRow) : Prop :=
  (∃ map, parse row.attributesJson = some (.object map) ∧
    (column serviceKey row.serviceName ++ fromFields (map.filter (·.1 ∉ [scopeKey, recordKey]))).Perm resource ∧
    (map.lookup scopeKey).map fromJson = some (.kvlist scope) ∧
    (map.lookup recordKey).map fromJson = some (.kvlist rec.attributes)) ∧
  Kept (LogTime rec) row.ts

def SpanLossless (parse : Text → Option Json) (resource scope : List KeyValue) (span : Span) (row : TraceRow) : Prop :=
  ((∃ map, parse row.attributesJson = some (.object map) ∧
      (column subjectKey row.subject ++ column tenantKey row.tenant ++ fromFields map).Perm span.attributes) ∧
    (∃ map, parse row.resourceJson = some (.object map) ∧
      (column serviceKey row.serviceName ++ fromFields map).Perm resource) ∧
    scope = []) ∧
  Kept span.startTimeUnixNano row.startTime ∧ Kept span.endTimeUnixNano row.endTime ∧
  (0 < span.startTimeUnixNano → span.startTimeUnixNano ≤ span.endTimeUnixNano →
    row.durationNs = span.endTimeUnixNano - span.startTimeUnixNano) ∧
  (span.startTimeUnixNano = 0 → 0 < span.endTimeUnixNano → row.durationNs ≠ span.endTimeUnixNano)

def records {R : Type} (req : List (Resource R)) : List (List KeyValue × List KeyValue × R) :=
  requestToRows (fun resource scope rec => (resource, scope, rec)) req

theorem requestToRows_eq {R Row : Type} (row : List KeyValue → List KeyValue → R → Row) (req : List (Resource R)) :
    requestToRows row req = (records req).map fun x => row x.1 x.2.1 x.2.2 := by
  simp [records, requestToRows, map_flatMap, Function.comp_def]

theorem kept_iff {n : ℕ} (h : n < 2 ^ 64) : Kept n (timestamp n) ↔ n < 2 ^ 63 := by
  unfold Kept timestamp asI64
  split_ifs <;> simp <;> omega

def resourceMap (resource : List KeyValue) : List (Text × Json) := jsonMap (resource.filter (·.1 ∉ [serviceKey]))

def spanMap (attrs : List KeyValue) : List (Text × Json) := jsonMap (attrs.filter (·.1 ∉ [subjectKey, tenantKey]))

/-- Distinct keys, `u64` times, and JSON that is read back: the decoder of requests stops at a depth that the JSON reader
reads. -/
structure LogInput (print : Json → Text) (parse : Text → Option Json) (resource scope : List KeyValue) (rec : LogRecord) :
    Prop where
  unique : Unique resource ∧ Unique scope ∧ Unique rec.attributes
  time : rec.timeUnixNano < 2 ^ 64 ∧ rec.observedTimeUnixNano < 2 ^ 64
  read : parse (print (.object (resourceMap resource))) = some (.object (resourceMap resource))
  mergedRead : parse (print (merged (resourceMap resource) scope rec.attributes)) =
    some (merged (resourceMap resource) scope rec.attributes)

structure SpanInput (print : Json → Text) (parse : Text → Option Json) (resource : List KeyValue) (span : Span) : Prop where
  unique : Unique resource ∧ Unique span.attributes
  time : span.startTimeUnixNano < 2 ^ 64 ∧ span.endTimeUnixNano < 2 ^ 64
  read : parse (print (.object (resourceMap resource))) = some (.object (resourceMap resource))
  spanRead : parse (print (.object (spanMap span.attributes))) = some (.object (spanMap span.attributes))

def LogHeeds (resource : List KeyValue) (rec : LogRecord) : Prop :=
  (Plain [serviceKey] resource ∧ ∀ kv ∈ resource, kv.1 ≠ scopeKey ∧ kv.1 ≠ recordKey) ∧ LogTime rec < 2 ^ 63

def SpanHeeds (resource scope : List KeyValue) (span : Span) : Prop :=
  (Plain [subjectKey, tenantKey] span.attributes ∧ Plain [serviceKey] resource ∧ scope = []) ∧
    span.startTimeUnixNano < 2 ^ 63 ∧ span.endTimeUnixNano < 2 ^ 63 ∧
      (span.startTimeUnixNano = 0 → span.endTimeUnixNano = 0)

variable {resource scope : List KeyValue} {rec : LogRecord} {span : Span}

theorem lookup_insert_self {A : Type} (k : Text) (val : A) (map : List (Text × A)) :
    (insert k val map).lookup k = some val := by
  unfold Redact.insert
  split
  next hmem =>
    induction map with
    | nil => cases hmem
    | cons e rest ih =>
      by_cases he : e.1 = k
      · simp [he]
      · have hrest : k ∈ keys rest := (mem_cons.1 hmem).resolve_left fun h => he h.symm
        rw [map_cons, if_neg he, lookup_cons, beq_false_of_ne (Ne.symm he)]
        exact ih hrest
  next hmem =>
    induction map with
    | nil => simp
    | cons e rest ih =>
      obtain ⟨hne, hrest⟩ := not_or.1 (mt mem_cons.2 hmem)
      rw [cons_append, lookup_cons, beq_false_of_ne hne]
      exact ih hrest

theorem lookup_insert_of_ne {A : Type} {k k' : Text} (h : k' ≠ k) (val : A) (map : List (Text × A)) :
    (insert k val map).lookup k' = map.lookup k' := by
  unfold Redact.insert
  split
  · clear * - h
    induction map with
    | nil => rfl
    | cons e rest ih =>
      by_cases he : e.1 = k
      · rw [map_cons, if_pos he, lookup_cons, lookup_cons, he, beq_false_of_ne h]
        exact ih
      · rw [map_cons, if_neg he, lookup_cons, lookup_cons, ih]
  · rw [lookup_append, lookup_cons, beq_false_of_ne h, lookup_nil, Option.or_none]

theorem filter_insert {A : Type} {ks : List Text} (h : k ∈ ks) (val : A) (map : List (Text × A)) :
    (insert k val map).filter (·.1 ∉ ks) = map.filter (·.1 ∉ ks) := by
  unfold Redact.insert
  split
  · clear * - h
    induction map with
    | nil => rfl
    | cons e rest ih => by_cases he : e.1 = k <;> simp_all [filter_cons]
  · simp [h]

theorem columns_singleton (k : Text) (attrs : List KeyValue) :
    columns print [k] attrs = column k (lifted print k attrs) := by simp [columns]

theorem log_lossless_iff (h : LogInput print parse resource scope rec) :
    LogLossless parse resource scope rec (logRow print parse resource scope rec) ↔ LogHeeds resource rec := by
  obtain ⟨⟨hresource, hscope, hrec⟩, htime, hread, hmerged⟩ := h
  have htime' : LogTime rec < 2 ^ 64 := by
    unfold LogTime
    split
    · exact htime.1
    · exact htime.2
  have hrest := hresource.filter (·.1 ∉ [serviceKey])
  have hattrs : (logRow print parse resource scope rec).attributesJson =
      print (merged (resourceMap resource) scope rec.attributes) := by
    rw [logRow, splitServiceAndJson, hrest.keyvalueToJson, mergeAttrsJson]
    rw [resourceMap] at hread
    rw [hread]
    rfl
  have hfilter : fromFields (((insert recordKey (keyvalueToJson rec.attributes)
      (insert scopeKey (keyvalueToJson scope) (resourceMap resource))).filter (·.1 ∉ [scopeKey, recordKey]))) =
        (resource.filter (·.1 ∉ [serviceKey])).filter (·.1 ∉ [scopeKey, recordKey]) := by
    rw [filter_insert (by simp), filter_insert (by simp), resourceMap, jsonMap, filter_map]
    exact (hrest.filter _).fromFields
  refine and_congr ?_ (kept_iff htime')
  rw [hattrs, hmerged]
  constructor
  · rintro ⟨map, hmap, hperm, -, -⟩
    cases hmap
    rw [hfilter] at hperm
    have hkeys : ∀ kv ∈ resource, kv.1 ≠ scopeKey ∧ kv.1 ≠ recordKey := by
      intro kv hkv
      rcases mem_append.1 (hperm.mem_iff.2 hkv) with hcol | hmem
      · obtain ⟨s, -, rfl⟩ := mem_map.1 hcol
        exact ⟨show serviceKey ≠ scopeKey by decide, show serviceKey ≠ recordKey by decide⟩
      · simpa using (mem_filter.1 hmem).2
    rw [filter_eq_self.2 fun kv hkv => by simpa using hkeys kv (mem_of_mem_filter hkv)] at hperm
    exact ⟨(columns_perm_iff (nodup_singleton _) hresource.nodup).1 (by rwa [columns_singleton]), hkeys⟩
  · rintro ⟨hplain, hkeys⟩
    refine ⟨_, rfl, ?_, ?_, ?_⟩
    · rw [hfilter, filter_eq_self.2 fun kv hkv => by simpa using hkeys kv (mem_of_mem_filter hkv)]
      rw [logRow, splitServiceAndJson, ← columns_singleton]
      exact (columns_perm_iff (nodup_singleton _) hresource.nodup).2 hplain
    · rw [lookup_insert_of_ne (by decide), lookup_insert_self, hscope.keyvalueToJson, Option.map_some, fromJson,
        hscope.fromFields]
    · rw [lookup_insert_self, hrec.keyvalueToJson, Option.map_some, fromJson, hrec.fromFields]

theorem span_lossless_iff (h : SpanInput print parse resource span) :
    SpanLossless parse resource scope span (traceRow print resource span) ↔ SpanHeeds resource scope span := by
  obtain ⟨⟨hresource, hspan⟩, ⟨hstart, hend⟩, hread, hattrs⟩ := h
  have hrest := hresource.filter (·.1 ∉ [serviceKey])
  have hown := hspan.filter (·.1 ∉ [subjectKey, tenantKey])
  have hresourceJson : (traceRow print resource span).resourceJson = print (.object (resourceMap resource)) := by
    rw [traceRow, splitServiceAndJson, hrest.keyvalueToJson, resourceMap]
  have hattrsJson : (traceRow print resource span).attributesJson = print (.object (spanMap span.attributes)) := by
    rw [traceRow, splitPensieveAttrs, hown.keyvalueToJson, spanMap]
  refine and_congr (and_congr ?_ (and_congr_left' ?_)) ?_
  · rw [hattrsJson, hattrs, ← @columns_perm_iff print _ _ (by decide) hspan.nodup]
    have hcol : columns print [subjectKey, tenantKey] span.attributes ++ span.attributes.filter (·.1 ∉ [subjectKey, tenantKey]) =
        column subjectKey (traceRow print resource span).subject ++ column tenantKey (traceRow print resource span).tenant ++
          fromFields (spanMap span.attributes) := by
      rw [spanMap, hown.fromFields]
      simp [columns, traceRow, splitPensieveAttrs]
    rw [hcol]
    exact ⟨fun ⟨map, hmap, hperm⟩ => by cases hmap; exact hperm, fun hperm => ⟨_, rfl, hperm⟩⟩
  · rw [hresourceJson, hread, ← @columns_perm_iff print _ _ (nodup_singleton _) hresource.nodup, columns_singleton]
    have hcol : resource.filter (·.1 ∉ [serviceKey]) = fromFields (resourceMap resource) := by
      rw [resourceMap, hrest.fromFields]
    rw [hcol]
    exact ⟨fun ⟨map, hmap, hperm⟩ => by cases hmap; exact hperm, fun hperm => ⟨_, rfl, hperm⟩⟩
  · rw [traceRow, kept_iff hstart, kept_iff hend]
    unfold asI64
    constructor
    · rintro ⟨hs, he, -, hepoch⟩
      refine ⟨hs, he, fun hzero => ?_⟩
      by_contra hne
      refine hepoch hzero (by omega) ?_
      rw [hzero, Nat.sub_zero, if_pos he]
    · rintro ⟨hs, he, hset⟩
      refine ⟨hs, he, fun hpos hle => ?_, fun hzero hpos => ?_⟩
      · rw [if_pos (by omega)]
        exact Nat.cast_sub hle
      · have := hset hzero
        omega

/-! ### Requests -/

theorem forall₂_rows_iff {R Row : Type} {row : List KeyValue → List KeyValue → R → Row} {req : List (Resource R)}
    {P : List KeyValue × List KeyValue × R → Row → Prop} {Q : List KeyValue × List KeyValue × R → Prop}
    (h : ∀ x ∈ records req, P x (row x.1 x.2.1 x.2.2) ↔ Q x) :
    Forall₂ P (records req) (requestToRows row req) ↔ ∀ x ∈ records req, Q x := by
  rw [requestToRows_eq, forall₂_map_right_iff, forall₂_same]
  exact forall₂_congr h

/-- **A row for each record, with its attributes and times**, if none of them meets a key, a value or a time that the
rows have no place for. -/
theorem lossless_iff (logs : List (Resource LogRecord)) (traces : List (Resource Span))
    (hlogs : ∀ x ∈ records logs, LogInput print parse x.1 x.2.1 x.2.2)
    (htraces : ∀ x ∈ records traces, SpanInput print parse x.1 x.2.2) :
    (Forall₂ (fun x row => LogLossless parse x.1 x.2.1 x.2.2 row) (records logs) (logRows print parse logs) ∧
      Forall₂ (fun x row => SpanLossless parse x.1 x.2.1 x.2.2 row) (records traces) (traceRows print traces)) ↔
    (∀ x ∈ records logs, LogHeeds x.1 x.2.2) ∧ ∀ x ∈ records traces, SpanHeeds x.1 x.2.1 x.2.2 := by
  exact and_congr (forall₂_rows_iff fun x hx => log_lossless_iff (hlogs x hx))
    (forall₂_rows_iff fun x hx => span_lossless_iff (htraces x hx))

def printEmpty : Json → Text
  | .object [] => "{}".toList
  | _ => "null".toList

def parseEmpty (t : Text) : Option Json := if t = "{}".toList then some (.object []) else none

def spanOf (start finish : ℕ) : List (Resource Span) := [⟨[], [⟨[], [⟨start, finish, []⟩]⟩]⟩]

theorem spanInput {start finish : ℕ} (hstart : start < 2 ^ 64) (hfinish : finish < 2 ^ 64) :
    ∀ x ∈ records (spanOf start finish), SpanInput printEmpty parseEmpty x.1 x.2.2 := by
  intro x hx
  obtain rfl := mem_singleton.1 hx
  exact ⟨⟨⟨nodup_nil, trivial⟩, ⟨nodup_nil, trivial⟩⟩, ⟨hstart, hfinish⟩, rfl, rfl⟩

theorem lossless_iff_span :
    Forall₂ (fun x row => SpanLossless parseEmpty x.1 x.2.1 x.2.2 row) (records (spanOf 5 7))
      (traceRows printEmpty (spanOf 5 7)) :=
  ((lossless_iff [] (spanOf 5 7) nofun (spanInput (by decide) (by decide))).2 ⟨nofun, fun x hx => by
    obtain rfl := mem_singleton.1 hx
    exact ⟨⟨nofun, nofun, rfl⟩, by decide, by decide, nofun⟩⟩).2

/-- **Of a span without a start, the whole time since the epoch is stored as its duration.** -/
theorem epoch_duration : ¬ Forall₂ (fun x row => SpanLossless parseEmpty x.1 x.2.1 x.2.2 row) (records (spanOf 0 7))
    (traceRows printEmpty (spanOf 0 7)) := by
  intro h
  obtain ⟨⟨-, -, -, -, hepoch⟩, -⟩ := forall₂_cons.1 h
  exact hepoch rfl (by decide) rfl

end Otlp
