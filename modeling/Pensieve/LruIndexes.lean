/-
**The three indexes of the cache.**

The cache keeps its entries by key, their keys by recency and the ranges of each path, and a count
of bytes.  Every operation changes all of them by hand.
-/

import Mathlib.Algebra.BigOperators.Group.List.Basic
import Mathlib.Algebra.GroupWithZero.Nat
import Mathlib.Data.List.Induction
import Pensieve.ObjectCache

namespace ObjectCache

open List

namespace Lru

variable {M A : Type} {l : Lru M A} {key k : Key} {path : Path} {rk : RangeKey} {e : Entry M A}
  {result : GetResult M A}

/-! ### The bytes of a map -/

def sizes (m : AList fun _ : Key => Entry M A) : ℕ := (m.entries.map fun x => x.2.nbytes).sum

theorem sizes_erase {m : AList fun _ : Key => Entry M A} (h : m.lookup key = some e) :
    sizes m = e.nbytes + sizes (m.erase key) := by
  have hkey : key ∈ m.entries.keys := AList.mem_keys.1 (AList.lookup_isSome.1 (by rw [h]; rfl))
  obtain ⟨b, l₁, l₂, hnot, hentries, herase⟩ := exists_of_kerase hkey
  have hb : b = e := by
    have hmem : Sigma.mk key b ∈ m.entries := by
      rw [hentries]
      simp
    have hlookup : m.lookup key = some b := AList.mem_lookup_iff.2 hmem
    rw [h] at hlookup
    exact (Option.some.inj hlookup).symm
  subst hb
  have hrest : (m.erase key).entries = l₁ ++ l₂ := herase
  unfold sizes
  rw [hrest, hentries]
  simp only [map_append, map_cons, sum_append, sum_cons]
  omega

theorem sizes_insert (m : AList fun _ : Key => Entry M A) (key : Key) (e : Entry M A) :
    sizes (m.insert key e) = e.nbytes + sizes (m.erase key) := by
  unfold sizes
  rw [AList.entries_insert]
  rfl

theorem sizes_erase_of_none {m : AList fun _ : Key => Entry M A} (h : m.lookup key = none) :
    sizes (m.erase key) = sizes m := by
  have hkey : key ∉ m.entries.keys := fun hmem => AList.lookup_eq_none.1 h (AList.mem_keys.2 hmem)
  unfold sizes
  rw [show (m.erase key).entries = m.entries from kerase_of_notMem_keys hkey]

/-! ### Entries and ticks -/

/-- The entries and the index by recency describe the same set, and the bytes are counted. -/
structure Recency (l : Lru M A) : Prop where
  tickOf : ∀ key e, l.map.lookup key = some e → l.byTick.lookup e.tick = some key
  keyOf : ∀ t key, l.byTick.lookup t = some key → ∃ e, l.map.lookup key = some e ∧ e.tick = t
  ticks : ∀ key e, l.map.lookup key = some e → e.tick ≤ l.tick
  total : l.totalBytes = sizes l.map

theorem Recency.unique (h : l.Recency) {e' : Entry M A} (he : l.map.lookup key = some e)
    (he' : l.map.lookup k = some e') (htick : e.tick = e'.tick) : key = k := by
  have hkey := h.tickOf key e he
  rw [htick, h.tickOf k e' he'] at hkey
  exact (Option.some.inj hkey).symm

theorem recency_new (maxTotal : Nat) : (new maxTotal : Lru M A).Recency where
  tickOf _ _ h := by cases h
  keyOf _ _ h := by cases h
  ticks _ _ h := by cases h
  total := rfl

def remove (l : Lru M A) (key : Key) (e : Entry M A) : Lru M A :=
  { l with
    map := l.map.erase key
    totalBytes := l.totalBytes - e.nbytes
    byTick := l.byTick.erase e.tick }

theorem Recency.remove (h : l.Recency) (he : l.map.lookup key = some e) : (l.remove key e).Recency where
  tickOf k e' he' := by
    have hk : k ≠ key := by
      rintro rfl
      rw [Lru.remove, AList.lookup_erase] at he'
      cases he'
    have hold : l.map.lookup k = some e' := by
      rw [← he']
      exact (AList.lookup_erase_ne hk).symm
    have htick : e'.tick ≠ e.tick := fun heq => hk (h.unique hold he heq)
    show (l.byTick.erase e.tick).lookup e'.tick = some k
    rw [AList.lookup_erase_ne htick]
    exact h.tickOf k e' hold
  keyOf t k ht := by
    have hne : t ≠ e.tick := by
      rintro rfl
      rw [Lru.remove, AList.lookup_erase] at ht
      cases ht
    have hold : l.byTick.lookup t = some k := by
      rw [← ht]
      exact (AList.lookup_erase_ne hne).symm
    obtain ⟨e', he', htick⟩ := h.keyOf t k hold
    have hk : k ≠ key := by
      rintro rfl
      rw [he] at he'
      exact hne (by rw [← htick, Option.some.inj he'])
    exact ⟨e', by rw [Lru.remove, AList.lookup_erase_ne hk, he'], htick⟩
  ticks k e' he' := by
    have hk : k ≠ key := by
      rintro rfl
      rw [Lru.remove, AList.lookup_erase] at he'
      cases he'
    rw [Lru.remove, AList.lookup_erase_ne hk] at he'
    exact h.ticks k e' he'
  total := by
    show l.totalBytes - e.nbytes = sizes (l.map.erase key)
    rw [h.total, sizes_erase he]
    omega

theorem Recency.of_byPath (h : l.Recency) (byPath : AList fun _ : Path => List RangeKey) :
    ({ l with byPath := byPath } : Lru M A).Recency := ⟨h.tickOf, h.keyOf, h.ticks, h.total⟩

theorem Recency.removeKey (h : l.Recency) (key : Key) : (l.removeKey key).Recency := by
  unfold Lru.removeKey
  cases he : l.map.lookup key with
  | none => exact h
  | some e => exact (h.remove he).of_byPath _

theorem Recency.dropKey (h : l.Recency) (path : Path) (rk : RangeKey) : (Lru.dropKey path l rk).Recency := by
  unfold Lru.dropKey
  cases he : l.map.lookup (path, rk) with
  | none => exact h
  | some e => exact h.remove he

theorem Recency.push (h : l.Recency) (hkey : l.map.lookup key = none) (result : GetResult M A) :
    (l.push key result).Recency where
  tickOf k e he := by
    unfold Lru.push at he ⊢
    by_cases hk : k = key
    · subst hk
      rw [AList.lookup_insert] at he
      cases he
      exact AList.lookup_insert _
    · rw [AList.lookup_insert_ne hk] at he
      have hle := h.ticks k e he
      show (l.byTick.insert (l.tick + 1) key).lookup e.tick = some k
      rw [AList.lookup_insert_ne (by omega)]
      exact h.tickOf k e he
  keyOf t k ht := by
    unfold Lru.push at ht ⊢
    by_cases hnew : t = l.tick + 1
    · subst hnew
      rw [AList.lookup_insert] at ht
      cases ht
      exact ⟨_, AList.lookup_insert _, rfl⟩
    · rw [AList.lookup_insert_ne hnew] at ht
      obtain ⟨e, he, htick⟩ := h.keyOf t k ht
      have hk : k ≠ key := by
        rintro rfl
        rw [hkey] at he
        cases he
      exact ⟨e, by rw [AList.lookup_insert_ne hk, he], htick⟩
  ticks k e he := by
    unfold Lru.push at he ⊢
    by_cases hk : k = key
    · subst hk
      rw [AList.lookup_insert] at he
      cases he
      exact le_rfl
    · rw [AList.lookup_insert_ne hk] at he
      exact Nat.le_succ_of_le (h.ticks k e he)
  total := by
    unfold Lru.push
    show l.totalBytes + _ = sizes (l.map.insert key _)
    rw [sizes_insert, sizes_erase_of_none hkey, h.total, Nat.add_comm]

theorem Recency.get (h : l.Recency) (key : Key) : (l.get key).2.Recency := by
  unfold Lru.get
  cases he : l.map.lookup key with
  | none => exact ⟨h.tickOf, h.keyOf, h.ticks, h.total⟩
  | some e =>
    refine ⟨fun k e' he' => ?_, fun t k ht => ?_, fun k e' he' => ?_, ?_⟩
    · by_cases hk : k = key
      · subst hk
        rw [AList.lookup_insert] at he'
        cases he'
        exact AList.lookup_insert _
      · rw [AList.lookup_insert_ne hk] at he'
        have hle := h.ticks k e' he'
        have htick : e'.tick ≠ e.tick := fun heq => hk (h.unique he' he heq)
        show ((l.byTick.erase e.tick).insert (l.tick + 1) key).lookup e'.tick = some k
        rw [AList.lookup_insert_ne (by omega), AList.lookup_erase_ne htick]
        exact h.tickOf k e' he'
    · by_cases hnew : t = l.tick + 1
      · subst hnew
        rw [AList.lookup_insert] at ht
        cases ht
        exact ⟨_, AList.lookup_insert _, rfl⟩
      · rw [AList.lookup_insert_ne hnew] at ht
        have hne : t ≠ e.tick := by
          rintro rfl
          rw [AList.lookup_erase] at ht
          cases ht
        rw [AList.lookup_erase_ne hne] at ht
        obtain ⟨e', he', htick⟩ := h.keyOf t k ht
        have hk : k ≠ key := by
          rintro rfl
          rw [he] at he'
          exact hne (by rw [← htick, Option.some.inj he'])
        exact ⟨e', by rw [AList.lookup_insert_ne hk, he'], htick⟩
    · by_cases hk : k = key
      · subst hk
        rw [AList.lookup_insert] at he'
        cases he'
        exact le_rfl
      · rw [AList.lookup_insert_ne hk] at he'
        exact Nat.le_succ_of_le (h.ticks k e' he')
    · show l.totalBytes = sizes (l.map.insert key _)
      rw [sizes_insert, h.total, sizes_erase he]

/-! ### The loop of an insertion -/

theorem maxTotal_removeKey (l : Lru M A) (key : Key) : (l.removeKey key).maxTotal = l.maxTotal := by
  unfold removeKey
  split <;> rfl

theorem Recency.victim (h : l.Recency) (hover : ¬l.totalBytes ≤ l.maxTotal) :
    ∃ victim e, l.byTick.keys.min?.bind l.byTick.lookup = some victim ∧ l.map.lookup victim = some e ∧
      ∀ k e', l.map.lookup k = some e' → e.tick ≤ e'.tick := by
  cases hmin : l.byTick.keys.min? with
  | none =>
    -- without ticks there are no entries, and no bytes
    have hkeys : l.byTick.keys = [] := min?_eq_none_iff.1 hmin
    have hempty : l.map.entries = [] := by
      by_contra hne
      obtain ⟨⟨k, e⟩, hmem⟩ := exists_mem_of_ne_nil _ hne
      have htick := h.tickOf k e (AList.mem_lookup_iff.2 hmem)
      have hin : e.tick ∈ l.byTick.keys := AList.mem_keys.1 (AList.lookup_isSome.1 (by rw [htick]; rfl))
      rw [hkeys] at hin
      cases hin
    rw [h.total, sizes, hempty] at hover
    exact absurd (Nat.zero_le _) hover
  | some t =>
    obtain ⟨hmem, hle⟩ := min?_eq_some_iff.1 hmin
    obtain ⟨victim, hvictim⟩ := Option.isSome_iff_exists.1 (AList.lookup_isSome.2 (AList.mem_keys.2 hmem))
    obtain ⟨e, he, htick⟩ := h.keyOf t victim hvictim
    refine ⟨victim, e, hvictim, he, fun k e' he' => ?_⟩
    rw [htick]
    exact hle _ (AList.mem_keys.1 (AList.lookup_isSome.1 (by rw [h.tickOf k e' he']; rfl)))

theorem byTick_removeKey (h : l.Recency) (he : l.map.lookup key = some e) :
    (l.removeKey key).byTick.keys.length + 1 = l.byTick.keys.length := by
  have hmem : e.tick ∈ l.byTick.keys := AList.mem_keys.1 (AList.lookup_isSome.1 (by rw [h.tickOf key e he]; rfl))
  have hpos : 0 < l.byTick.keys.length := length_pos_of_mem hmem
  unfold removeKey
  rw [he]
  show (l.byTick.erase e.tick).keys.length + 1 = _
  rw [AList.keys_erase, length_erase_of_mem hmem]
  omega

theorem totalBytes_evictOver (h : l.Recency) {fuel : ℕ} (hfuel : l.byTick.keys.length ≤ fuel) :
    (Lru.evictOver fuel l).totalBytes ≤ l.maxTotal := by
  induction fuel generalizing l with
  | zero =>
    by_contra hover
    obtain ⟨victim, e, -, he, -⟩ := h.victim hover
    have hlen := byTick_removeKey h he
    omega
  | succ fuel ih =>
    unfold Lru.evictOver
    split
    · assumption
    · rename_i hover
      obtain ⟨victim, e, hmin, he, -⟩ := h.victim hover
      have hlen := byTick_removeKey h he
      rw [hmin]
      have hrest := ih (h.removeKey victim) (by omega)
      rwa [maxTotal_removeKey] at hrest

theorem maxTotal_evictOver (l : Lru M A) (fuel : ℕ) : (Lru.evictOver fuel l).maxTotal = l.maxTotal := by
  induction fuel generalizing l with
  | zero => rfl
  | succ fuel ih =>
    unfold Lru.evictOver
    split
    · rfl
    · split
      · rfl
      · rw [ih, maxTotal_removeKey]

theorem lookup_removeKey_ne (hk : k ≠ key) : (l.removeKey key).map.lookup k = l.map.lookup k := by
  unfold removeKey
  split
  · rfl
  · exact AList.lookup_erase_ne hk

theorem lookup_evictOver_self (h : l.Recency) (he : l.map.lookup key = some e) (hfit : e.nbytes ≤ l.maxTotal)
    (hnewest : ∀ k e', l.map.lookup k = some e' → e'.tick ≤ e.tick) (fuel : ℕ) :
    (Lru.evictOver fuel l).map.lookup key = some e := by
  induction fuel generalizing l with
  | zero => exact he
  | succ fuel ih =>
    unfold Lru.evictOver
    split
    · exact he
    · rename_i hover
      obtain ⟨victim, e₀, hmin, he₀, hleast⟩ := h.victim hover
      rw [hmin]
      -- over the budget there is another entry, and the oldest is not the newest
      have hother : ∃ k e', k ≠ key ∧ l.map.lookup k = some e' := by
        have hsum := sizes_erase he
        have hpos : 0 < sizes (l.map.erase key) := by
          rw [h.total] at hover
          omega
        have hne : (l.map.erase key).entries ≠ [] := by
          intro hnil
          rw [sizes, hnil] at hpos
          exact absurd hpos (lt_irrefl 0)
        obtain ⟨⟨k, e'⟩, hmem⟩ := exists_mem_of_ne_nil _ hne
        have hlookup : (l.map.erase key).lookup k = some e' := AList.mem_lookup_iff.2 hmem
        have hk : k ≠ key := by
          rintro rfl
          rw [AList.lookup_erase] at hlookup
          cases hlookup
        exact ⟨k, e', hk, by rw [← AList.lookup_erase_ne hk]; exact hlookup⟩
      have hvictim : key ≠ victim := by
        rintro rfl
        obtain ⟨k, e', hk, he'⟩ := hother
        rw [he] at he₀
        obtain rfl := Option.some.inj he₀
        exact hk (h.unique he' he (le_antisymm (hnewest k e' he') (hleast k e' he')))
      refine ih (h.removeKey victim) ?_ ?_ fun k e' he' => ?_
      · rw [lookup_removeKey_ne hvictim, he]
      · rw [maxTotal_removeKey]
        exact hfit
      · exact hnewest k e' (lookup_removeKey he').2

/-! ### The index by path -/

/-- **The three indexes describe one set of entries**: each path lists the ranges that it has entries for, once, and a
path without entries is not there. -/
structure Consistent (l : Lru M A) : Prop where
  recency : l.Recency
  listed : ∀ path rk, (path, rk) ∈ l.map ↔ ∃ v, l.byPath.lookup path = some v ∧ rk ∈ v
  once : ∀ path v, l.byPath.lookup path = some v → v.Nodup ∧ v ≠ []

theorem consistent_new (maxTotal : Nat) : (new maxTotal : Lru M A).Consistent where
  recency := recency_new maxTotal
  listed path rk := by
    constructor
    · intro h
      exact absurd h (AList.notMem_empty _)
    · rintro ⟨v, h, -⟩
      cases h
  once _ _ h := by cases h

theorem Consistent.indexed (h : l.Consistent) : l.Indexed := fun path rk _ he =>
  (h.listed path rk).1 (AList.lookup_isSome.1 (by rw [he]; rfl))

theorem Consistent.get (h : l.Consistent) (key : Key) : (l.get key).2.Consistent where
  recency := h.recency.get key
  listed path rk := by
    rw [byPath_get, ← h.listed path rk]
    unfold Lru.get
    cases he : l.map.lookup key with
    | none => exact Iff.rfl
    | some e =>
      have hmem : key ∈ l.map := AList.lookup_isSome.1 (by rw [he]; rfl)
      show (path, rk) ∈ l.map.insert key _ ↔ _
      rw [AList.mem_insert]
      constructor
      · rintro (rfl | hold)
        · exact hmem
        · exact hold
      · exact .inr
  once path v hv := by
    rw [byPath_get] at hv
    exact h.once path v hv

theorem lookup_unindex {byPath : AList fun _ : Path => List RangeKey} {v : List RangeKey} :
    (unindex byPath key).lookup path = some v ↔
      if path = key.1 then ∃ u, byPath.lookup path = some u ∧ v = u.filter (· ≠ key.2) ∧ v ≠ []
      else byPath.lookup path = some v := by
  unfold unindex
  by_cases hp : path = key.1
  · subst hp
    rw [if_pos rfl]
    cases hu : byPath.lookup key.1 with
    | none => simp [hu]
    | some u =>
      simp only [List.isEmpty_iff]
      split
      next hnil =>
        rw [AList.lookup_erase]
        simp only [reduceCtorEq, Option.some.injEq, exists_eq_left', false_iff, not_and, not_not]
        rintro rfl
        exact hnil
      next hnil =>
        rw [AList.lookup_insert]
        simp only [Option.some.injEq, exists_eq_left']
        constructor
        · rintro rfl
          exact ⟨rfl, hnil⟩
        · rintro ⟨rfl, -⟩
          rfl
  · rw [if_neg hp]
    cases hu : byPath.lookup key.1 with
    | none => exact Iff.rfl
    | some u =>
      simp only
      split
      · rw [AList.lookup_erase_ne hp]
      · rw [AList.lookup_insert_ne hp]

theorem mem_removeKey : k ∈ (l.removeKey key).map ↔ k ∈ l.map ∧ k ≠ key := by
  unfold removeKey
  cases he : l.map.lookup key with
  | none =>
    constructor
    · intro hk
      refine ⟨hk, ?_⟩
      rintro rfl
      exact AList.lookup_eq_none.1 he hk
    · exact And.left
  | some e =>
    show k ∈ l.map.erase key ↔ _
    rw [AList.mem_erase]
    exact And.comm

theorem Consistent.removeKey (h : l.Consistent) (key : Key) : (l.removeKey key).Consistent := by
  cases he : l.map.lookup key with
  | none =>
    have hsame : l.removeKey key = l := by rw [Lru.removeKey, he]
    rwa [hsame]
  | some e =>
    have hpath : (l.removeKey key).byPath = unindex l.byPath key := by rw [Lru.removeKey, he]
    refine ⟨h.recency.removeKey key, fun path rk => ?_, fun path v hv => ?_⟩
    · rw [mem_removeKey, h.listed path rk, hpath]
      simp only [lookup_unindex]
      by_cases hp : path = key.1
      · simp only [if_pos hp]
        constructor
        · rintro ⟨⟨u, hu, hrk⟩, hne⟩
          have hkeep : rk ∈ u.filter (· ≠ key.2) :=
            mem_filter.2 ⟨hrk, decide_eq_true fun hrk2 => hne (by rw [hp, hrk2])⟩
          exact ⟨_, ⟨u, hu, rfl, ne_nil_of_mem hkeep⟩, hkeep⟩
        · rintro ⟨v, ⟨u, hu, rfl, -⟩, hrk⟩
          obtain ⟨hrk, hne⟩ := mem_filter.1 hrk
          exact ⟨⟨u, hu, hrk⟩, fun heq => of_decide_eq_true hne (by rw [← heq])⟩
      · simp only [if_neg hp]
        constructor
        · exact And.left
        · intro hv
          exact ⟨hv, fun heq => hp (by rw [← heq])⟩
    · rw [hpath, lookup_unindex] at hv
      split at hv
      · obtain ⟨u, hu, rfl, hne⟩ := hv
        exact ⟨(h.once path u hu).1.filter _, hne⟩
      · exact h.once path v hv

theorem Consistent.push (h : l.Consistent) (hkey : l.map.lookup key = none) (result : GetResult M A) :
    (l.push key result).Consistent := by
  have hnot : key ∉ l.map := AList.lookup_eq_none.1 hkey
  refine ⟨h.recency.push hkey result, fun path rk => ?_, fun path v hv => ?_⟩
  · show (path, rk) ∈ l.map.insert key _ ↔ _
    rw [AList.mem_insert, h.listed path rk]
    unfold Lru.push
    by_cases hp : path = key.1
    · subst hp
      simp only [AList.lookup_insert, Option.some.injEq, exists_eq_left', mem_append, mem_singleton]
      cases l.byPath.lookup key.1 with
      | none => simp [Prod.ext_iff]
      | some u => simp [Prod.ext_iff, or_comm]
    · simp only [AList.lookup_insert_ne hp]
      constructor
      · rintro (heq | hv)
        · exact absurd (by rw [← heq]) hp
        · exact hv
      · exact .inr
  · unfold Lru.push at hv
    by_cases hp : path = key.1
    · subst hp
      rw [AList.lookup_insert, Option.some.injEq] at hv
      subst hv
      refine ⟨?_, by simp⟩
      cases hu : l.byPath.lookup key.1 with
      | none => simp
      | some u =>
        have hrk : key.2 ∉ u := fun hrk => hnot ((h.listed key.1 key.2).2 ⟨u, hu, hrk⟩)
        rw [Option.getD_some, nodup_append]
        exact ⟨(h.once _ u hu).1, nodup_singleton _, fun a ha b hb => by
          rintro rfl
          exact hrk (mem_singleton.1 hb ▸ ha)⟩
    · rw [AList.lookup_insert_ne hp] at hv
      exact h.once path v hv

theorem Consistent.evictOver (h : l.Consistent) (fuel : ℕ) : (Lru.evictOver fuel l).Consistent := by
  induction fuel generalizing l with
  | zero => exact h
  | succ fuel ih =>
    unfold Lru.evictOver
    split
    · exact h
    · split
      · exact h
      · exact ih (h.removeKey _)

theorem lookup_removeKey_self (l : Lru M A) (key : Key) : (l.removeKey key).map.lookup key = none := by
  rw [AList.lookup_eq_none, mem_removeKey]
  exact fun h => h.2 rfl

theorem Consistent.insert (h : l.Consistent) (key : Key) (result : GetResult M A) :
    (l.insert key result).Consistent := by
  unfold Lru.insert
  split
  · exact h
  · exact ((h.removeKey key).push (lookup_removeKey_self l key) result).evictOver _

theorem lookup_dropKey_ne (hk : k ≠ (path, rk)) : (dropKey path l rk).map.lookup k = l.map.lookup k := by
  unfold dropKey
  split
  · rfl
  · exact AList.lookup_erase_ne hk

theorem lookup_foldl_dropKey_ne {rks : List RangeKey} (hk : k.1 ≠ path) :
    (rks.foldl (dropKey path) l).map.lookup k = l.map.lookup k := by
  induction rks generalizing l with
  | nil => rfl
  | cons rk rks ih =>
    rw [foldl_cons, ih, lookup_dropKey_ne]
    rintro rfl
    exact hk rfl

theorem Recency.foldl_dropKey (h : l.Recency) (path : Path) (rks : List RangeKey) :
    (rks.foldl (Lru.dropKey path) l).Recency := by
  induction rks generalizing l with
  | nil => exact h
  | cons rk rks ih => exact ih (h.dropKey path rk)

theorem Recency.evictPath (h : l.Recency) (path : Path) : (l.evictPath path).Recency := by
  unfold Lru.evictPath
  split
  · exact h
  · exact (h.of_byPath _).foldl_dropKey path _

theorem lookup_evictPath_ne (hk : k.1 ≠ path) : (l.evictPath path).map.lookup k = l.map.lookup k := by
  unfold evictPath
  split
  · rfl
  · exact lookup_foldl_dropKey_ne hk

theorem Consistent.lookup_evictPath_self (h : l.Consistent) (path : Path) (rk : RangeKey) :
    (l.evictPath path).map.lookup (path, rk) = none := by
  cases he : (l.evictPath path).map.lookup (path, rk) with
  | none => rfl
  | some e => exact absurd rfl (lookup_evictPath h.indexed he).1

theorem lookup_byPath_evictPath (l : Lru M A) (path p : Path) :
    (l.evictPath path).byPath.lookup p = if p = path then none else l.byPath.lookup p := by
  by_cases hp : p = path
  · subst hp
    rw [if_pos rfl]
    unfold evictPath
    split
    next hv => exact hv
    next rks hv => rw [byPath_foldl_dropKey, AList.lookup_erase]
  · rw [if_neg hp]
    unfold evictPath
    split
    next => rfl
    next rks hv => rw [byPath_foldl_dropKey, AList.lookup_erase_ne hp]

theorem Consistent.evictPath (h : l.Consistent) (path : Path) : (l.evictPath path).Consistent := by
  refine ⟨h.recency.evictPath path, fun p rk => ?_, fun p v hv => ?_⟩
  · rw [lookup_byPath_evictPath]
    by_cases hp : p = path
    · subst hp
      rw [if_pos rfl]
      constructor
      · intro hmem
        exact absurd hmem (AList.lookup_eq_none.1 (h.lookup_evictPath_self p rk))
      · rintro ⟨v, hv, -⟩
        cases hv
    · rw [if_neg hp, ← h.listed p rk, ← AList.lookup_isSome, ← AList.lookup_isSome,
        lookup_evictPath_ne (k := (p, rk)) hp]
  · rw [lookup_byPath_evictPath] at hv
    split at hv
    · cases hv
    · exact h.once p v hv

/-! ### Runs -/

inductive Op (M A : Type) where
  | get (key : Key)
  | insert (key : Key) (result : GetResult M A)
  | removeKey (key : Key)
  | evictPath (path : Path)

def Op.apply (l : Lru M A) : Op M A → Lru M A
  | .get key => (l.get key).2
  | .insert key result => l.insert key result
  | .removeKey key => l.removeKey key
  | .evictPath path => l.evictPath path

theorem maxTotal_evictPath (l : Lru M A) (path : Path) : (l.evictPath path).maxTotal = l.maxTotal := by
  have hfold : ∀ (rks : List RangeKey) (l : Lru M A), (rks.foldl (dropKey path) l).maxTotal = l.maxTotal := by
    intro rks
    induction rks with
    | nil => exact fun _ => rfl
    | cons rk rks ih =>
      intro l
      rw [foldl_cons, ih]
      unfold dropKey
      split <;> rfl
  unfold evictPath
  split
  · rfl
  · rw [hfold]

theorem totalBytes_removeKey_le (l : Lru M A) (key : Key) : (l.removeKey key).totalBytes ≤ l.totalBytes := by
  unfold removeKey
  split
  · exact le_rfl
  · exact Nat.sub_le _ _

theorem totalBytes_evictPath_le (l : Lru M A) (path : Path) : (l.evictPath path).totalBytes ≤ l.totalBytes := by
  have hfold : ∀ (rks : List RangeKey) (l : Lru M A), (rks.foldl (dropKey path) l).totalBytes ≤ l.totalBytes := by
    intro rks
    induction rks with
    | nil => exact fun _ => le_rfl
    | cons rk rks ih =>
      intro l
      refine le_trans (ih _) ?_
      unfold dropKey
      split
      · exact le_rfl
      · exact Nat.sub_le _ _
  unfold evictPath
  split
  · exact le_rfl
  · exact hfold _ _

theorem Consistent.insert_spec (h : l.Consistent) (hbudget : l.totalBytes ≤ l.maxTotal) (key : Key)
    (result : GetResult M A) : (l.insert key result).totalBytes ≤ (l.insert key result).maxTotal ∧
      (l.insert key result).maxTotal = l.maxTotal ∧ (max result.bytes.length entryOverhead ≤ l.maxTotal →
        ∃ e, (l.insert key result).map.lookup key = some e ∧ e.result = result) := by
  unfold Lru.insert
  split
  next hlarge => exact ⟨hbudget, rfl, fun hfit => absurd hfit (not_le.2 hlarge)⟩
  next hfits =>
    have hnone := lookup_removeKey_self l key
    have hrecency := (h.recency.removeKey key).push hnone result
    have hmax : ((l.removeKey key).push key result).maxTotal = l.maxTotal := maxTotal_removeKey l key
    have hself : ((l.removeKey key).push key result).map.lookup key =
        some ⟨result, (l.removeKey key).tick + 1, max result.bytes.length entryOverhead⟩ := AList.lookup_insert _
    refine ⟨?_, ?_, fun hfit =>
      ⟨⟨result, (l.removeKey key).tick + 1, max result.bytes.length entryOverhead⟩, ?_, rfl⟩⟩
    · rw [maxTotal_evictOver]
      exact totalBytes_evictOver hrecency le_rfl
    · rw [maxTotal_evictOver, hmax]
    · refine lookup_evictOver_self hrecency hself ?_ (fun k e he => ?_) _
      · rw [hmax]
        exact hfit
      · exact hrecency.ticks k e he

theorem Consistent.apply (h : l.Consistent) (hbudget : l.totalBytes ≤ l.maxTotal) (op : Op M A) :
    (op.apply l).Consistent ∧ (op.apply l).totalBytes ≤ (op.apply l).maxTotal ∧ (op.apply l).maxTotal = l.maxTotal := by
  cases op with
  | get key =>
    refine ⟨h.get key, ?_⟩
    show (l.get key).2.totalBytes ≤ (l.get key).2.maxTotal ∧ (l.get key).2.maxTotal = l.maxTotal
    unfold Lru.get
    split <;> exact ⟨hbudget, rfl⟩
  | insert key result =>
    have hspec := h.insert_spec hbudget key result
    exact ⟨h.insert key result, hspec.1, hspec.2.1⟩
  | removeKey key =>
    refine ⟨h.removeKey key, ?_, maxTotal_removeKey l key⟩
    show (l.removeKey key).totalBytes ≤ (l.removeKey key).maxTotal
    rw [maxTotal_removeKey]
    exact le_trans (totalBytes_removeKey_le l key) hbudget
  | evictPath path =>
    refine ⟨h.evictPath path, ?_, maxTotal_evictPath l path⟩
    show (l.evictPath path).totalBytes ≤ (l.evictPath path).maxTotal
    rw [maxTotal_evictPath]
    exact le_trans (totalBytes_evictPath_le l path) hbudget

/-- **After any operations the three indexes describe the same entries**, the bytes are counted and within the budget;
an insertion that fits is there after it, and an eviction leaves nothing of its path. -/
theorem consistent_run (maxTotal : ℕ) (ops : List (Op M A)) :
    let l := ops.foldl Op.apply (new maxTotal)
    l.Consistent ∧ l.totalBytes ≤ maxTotal ∧ (∀ key result, max result.bytes.length entryOverhead ≤ maxTotal →
        ∃ e, (l.insert key result).map.lookup key = some e ∧ e.result = result) ∧
      ∀ path rk, (l.evictPath path).map.lookup (path, rk) = none := by
  have hrun : (ops.foldl Op.apply (new maxTotal : Lru M A)).Consistent ∧
      (ops.foldl Op.apply (new maxTotal : Lru M A)).totalBytes ≤
        (ops.foldl Op.apply (new maxTotal : Lru M A)).maxTotal ∧
      (ops.foldl Op.apply (new maxTotal : Lru M A)).maxTotal = maxTotal := by
    induction ops using List.reverseRecOn with
    | nil => exact ⟨consistent_new maxTotal, Nat.zero_le _, rfl⟩
    | append_singleton ops op ih =>
      obtain ⟨hcons, hbudget, hmax⟩ := ih
      obtain ⟨hcons', hbudget', hmax'⟩ := hcons.apply hbudget op
      rw [foldl_append, foldl_cons, foldl_nil]
      exact ⟨hcons', hbudget', hmax'.trans hmax⟩
  obtain ⟨hcons, hbudget, hmax⟩ := hrun
  refine ⟨hcons, by rwa [hmax] at hbudget, fun key result hfit => ?_, fun path rk => hcons.lookup_evictPath_self path rk⟩
  exact (hcons.insert_spec hbudget key result).2.2 (by rwa [hmax])

end Lru

end ObjectCache
