/-
**Redacting a JSON value.**

The walk redacts the strings of a value in place.  The keys of an object are renamed before, one
after another: a key that has a finding is taken out of the map, and its value is put back under the
redacted key.
-/

import Pensieve.Redact

namespace Redact

open List

/-- `serde_json::Value`, over a type of numbers. -/
inductive Value (N : Type)
  | null
  | bool (b : Bool)
  | number (n : N)
  | string (s : Text)
  | array (items : List (Value N))
  | object (map : List (Text × Value N))

variable {N A : Type}

/-! ### Maps -/

def keys (map : List (Text × A)) : List Text := map.map Prod.fst

/-- `Map::remove`: the last entry moves to the place of the one that is taken out. -/
def swapRemove (key : Text) : List (Text × A) → Option (A × List (Text × A))
  | [] => none
  | e :: rest =>
    if e.1 = key then
      some (e.2, match rest.getLast? with
        | some last => last :: rest.dropLast
        | none => [])
    else (swapRemove key rest).map fun out => (out.1, e :: out.2)

def insert (key : Text) (val : A) (map : List (Text × A)) : List (Text × A) :=
  if key ∈ keys map then map.map fun e => if e.1 = key then (key, val) else e else map ++ [(key, val)]

/-! ### The walk -/

def SecretGuard.scan (g : SecretGuard) (text : Text) : List Finding := (g.redactText text).2

def SecretGuard.red (g : SecretGuard) (text : Text) : Text := (g.redactText text).1

def SecretGuard.dirty (g : SecretGuard) (key : Text) : Bool := !(g.scan key).isEmpty

def SecretGuard.renameKey (g : SecretGuard) (out : List (Text × A) × List Finding) (key : Text) :
    List (Text × A) × List Finding :=
  match swapRemove key out.1 with
  | some (val, map) => (insert (g.red key) val map, out.2 ++ g.scan key)
  | none => out

def SecretGuard.renameKeys (g : SecretGuard) (map : List (Text × A)) : List (Text × A) × List Finding :=
  ((keys map).filter g.dirty).foldl g.renameKey (map, [])

mutual
/-- `walk_json`: the value that is left, and the findings.  Renaming moves values without a look at them, so the model has
them walked before. -/
def SecretGuard.walkJson (g : SecretGuard) : Value N → Value N × List Finding
  | .string s => (.string (if (g.scan s).isEmpty then s else g.red s), g.scan s)
  | .array items =>
    let walked := g.walkItems items
    (.array (walked.map Prod.fst), walked.flatMap Prod.snd)
  | .object map =>
    let (renamed, findings) := g.renameKeys (g.walkFields map)
    (.object (renamed.map fun e => (e.1, e.2.1)), findings ++ renamed.flatMap fun e => e.2.2)
  | v => (v, [])

def SecretGuard.walkItems (g : SecretGuard) : List (Value N) → List (Value N × List Finding)
  | [] => []
  | v :: vs => g.walkJson v :: g.walkItems vs

def SecretGuard.walkFields (g : SecretGuard) : List (Text × Value N) → List (Text × (Value N × List Finding))
  | [] => []
  | (k, v) :: rest => (k, g.walkJson v) :: g.walkFields rest
end

def SecretGuard.redactJson (g : SecretGuard) (v : Value N) : Value N × List Finding := g.walkJson v

/-! ### What is asked of it -/

mutual
def Valid : Value N → Prop
  | .array items => ValidItems items
  | .object map => (keys map).Nodup ∧ ValidFields map
  | _ => True

def ValidItems : List (Value N) → Prop
  | [] => True
  | v :: vs => Valid v ∧ ValidItems vs

def ValidFields : List (Text × Value N) → Prop
  | [] => True
  | (_, v) :: rest => Valid v ∧ ValidFields rest
end

mutual
/-- **The second value is the first one with its strings and keys redacted**; the entries of an object have no order. -/
def Redacted (red : Text → Text) : Value N → Value N → Prop
  | .string s, w => w = .string (red s)
  | .array items, w => ∃ ws, w = .array ws ∧ RedactedItems red items ws
  | .object map, w => ∃ entries ws, w = .object entries ∧ entries.Perm ws ∧ RedactedFields red map ws
  | v, w => w = v

def RedactedItems (red : Text → Text) : List (Value N) → List (Value N) → Prop
  | [], ws => ws = []
  | v :: vs, ws => ∃ x xs, ws = x :: xs ∧ Redacted red v x ∧ RedactedItems red vs xs

def RedactedFields (red : Text → Text) : List (Text × Value N) → List (Text × Value N) → Prop
  | [], ws => ws = []
  | (k, v) :: rest, ws => ∃ x xs, ws = (red k, x) :: xs ∧ Redacted red v x ∧ RedactedFields red rest xs
end

mutual
def Value.texts : Value N → List Text
  | .string s => [s]
  | .array items => textsItems items
  | .object map => textsFields map
  | _ => []

def Value.textsItems : List (Value N) → List Text
  | [] => []
  | v :: vs => v.texts ++ textsItems vs

def Value.textsFields : List (Text × Value N) → List Text
  | [] => []
  | (k, v) :: rest => k :: (v.texts ++ textsFields rest)
end

def SecretGuard.HasKnown (g : SecretGuard) (text : Text) : Prop := ∃ k ∈ g.known, k.value <:+: text

instance (g : SecretGuard) (text : Text) : Decidable (g.HasKnown text) :=
  inferInstanceAs (Decidable (∃ k ∈ g.known, k.value <:+: text))

/-- **What `redact_json` is to do.** -/
def Keeps (g : SecretGuard) (v w : Value N) : Prop := Redacted g.red v w ∧ ∀ text ∈ w.texts, ¬g.HasKnown text

def Apart (g : SecretGuard) (ks : List Text) : Prop :=
  (ks.map g.red).Nodup ∧ (ks.filter g.dirty).Pairwise fun a b => g.red a ≠ b

mutual
def KeysApart (g : SecretGuard) : Value N → Prop
  | .array items => KeysApartItems g items
  | .object map => Apart g (keys map) ∧ KeysApartFields g map
  | _ => True

def KeysApartItems (g : SecretGuard) : List (Value N) → Prop
  | [] => True
  | v :: vs => KeysApart g v ∧ KeysApartItems g vs

def KeysApartFields (g : SecretGuard) : List (Text × Value N) → Prop
  | [] => True
  | (_, v) :: rest => KeysApart g v ∧ KeysApartFields g rest
end

/-! ### Renaming -/

variable {g : SecretGuard}

theorem redactPatterns_clean {ps : List Pattern} {text : Text} (h : (redactPatterns ps text).2 = []) :
    (redactPatterns ps text).1 = text := by
  induction ps with
  | nil => rfl
  | cons p ps ih =>
    rw [redactPatterns] at h ⊢
    split_ifs at h ⊢ with hempty
    · exact ih h
    · simp only [append_eq_nil_iff, map_eq_nil_iff] at h
      exact absurd (List.isEmpty_iff.2 h.1) hempty

theorem red_of_scan {text : Text} (h : g.scan text = []) : g.red text = text := by
  simp only [SecretGuard.scan, SecretGuard.redactText, SecretGuard.redactKnown, append_eq_nil_iff, map_eq_nil_iff] at h
  obtain ⟨hknown, hpatterns⟩ := h
  simp only [SecretGuard.red, SecretGuard.redactText, SecretGuard.redactKnown]
  rw [redactPatterns_clean hpatterns, hknown]
  rfl

theorem red_of_not_dirty {key : Text} (h : ¬g.dirty key = true) : g.red key = key := by
  simp only [SecretGuard.dirty, Bool.not_eq_true', Bool.not_eq_false, List.isEmpty_iff] at h
  exact red_of_scan h

theorem swapRemove_cases (key : Text) (map : List (Text × A)) : (key ∉ keys map ∧ swapRemove key map = none) ∨
      ∃ val rest, swapRemove key map = some (val, rest) ∧ map.Perm ((key, val) :: rest) := by
  induction map with
  | nil => exact .inl ⟨not_mem_nil, rfl⟩
  | cons e map ih =>
    rw [swapRemove]
    by_cases he : e.1 = key
    · rw [if_pos he]
      refine .inr ⟨e.2, _, rfl, ?_⟩
      rw [← he]
      refine List.Perm.cons e ?_
      cases hlast : map.getLast? with
      | none => rw [getLast?_eq_none_iff.1 hlast]
      | some last =>
        obtain ⟨init, rfl⟩ := getLast?_eq_some_iff.1 hlast
        rw [dropLast_concat]
        exact perm_append_singleton last init
    · rw [if_neg he]
      rcases ih with ⟨hmem, hnone⟩ | ⟨val, rest, hsome, hperm⟩
      · refine .inl ⟨?_, by rw [hnone]; rfl⟩
        exact not_mem_cons_of_ne_of_not_mem (fun h => he h.symm) hmem
      · refine .inr ⟨val, e :: rest, by rw [hsome]; rfl, ?_⟩
        exact (hperm.cons e).trans (List.Perm.swap _ _ _)

theorem length_insert (key : Text) (val : A) (map : List (Text × A)) :
    (insert key val map).length = map.length + if key ∈ keys map then 0 else 1 := by
  rw [insert]
  split
  · exact length_map _
  · exact length_append

theorem length_renameKey_le (out : List (Text × A) × List Finding) (key : Text) :
    (g.renameKey out key).1.length ≤ out.1.length := by
  rw [SecretGuard.renameKey]
  rcases swapRemove_cases key out.1 with ⟨-, h⟩ | ⟨val, rest, h, hperm⟩
  · rw [h]
  · have hlen := length_insert (g.red key) val rest
    have hle : (if g.red key ∈ keys rest then 0 else 1) ≤ 1 := by split <;> decide
    rw [h, hperm.length_eq, length_cons]
    exact hlen.trans_le (Nat.add_le_add_left hle _)

theorem length_foldl_renameKey_le (ds : List Text) (out : List (Text × A) × List Finding) :
    (ds.foldl g.renameKey out).1.length ≤ out.1.length := by
  induction ds generalizing out with
  | nil => exact le_rfl
  | cons d ds ih => exact (ih _).trans (length_renameKey_le out d)

def Free (g : SecretGuard) (ds ks : List Text) : Prop :=
  (ds.Pairwise fun a b => g.red a ≠ b ∧ g.red a ≠ g.red b) ∧ ∀ a ∈ ds, ∀ c ∈ ks, c ∉ ds → g.red a ≠ c

theorem free_cons {d : Text} {ds ks rest : List Text} (hks : ks.Perm (d :: rest)) (hd : d ∉ rest)
    (hds : ∀ a ∈ ds, a ∈ rest) (hred : g.red d ∉ rest) : Free g (d :: ds) ks ↔ Free g ds (rest ++ [g.red d]) := by
  have hne : ∀ {c}, c ∈ rest → c ≠ d := fun hc heq => hd (heq ▸ hc)
  rw [Free, Free, pairwise_cons]
  constructor
  · rintro ⟨⟨hfirst, hpair⟩, hother⟩
    refine ⟨hpair, fun a ha c hc hcd => ?_⟩
    rcases mem_append.1 hc with hc | hc
    · exact hother a (mem_cons_of_mem _ ha) c (hks.mem_iff.2 (mem_cons_of_mem _ hc))
        (not_mem_cons_of_ne_of_not_mem (hne hc) hcd)
    · rw [mem_singleton.1 hc]
      exact (hfirst a ha).2.symm
  · rintro ⟨hpair, hother⟩
    refine ⟨⟨fun b hb => ⟨fun heq => hred (heq ▸ hds b hb), fun heq => ?_⟩, hpair⟩, fun a ha c hc hcd => ?_⟩
    · exact hother b hb (g.red d) (by simp) (fun hmem => hred (hds _ hmem)) heq.symm
    · obtain ⟨hcne, hcds⟩ := not_or.1 (mt mem_cons.2 hcd)
      have hcrest := (mem_cons.1 (hks.mem_iff.1 hc)).resolve_left hcne
      rcases mem_cons.1 ha with rfl | ha
      · exact fun heq => hred (heq ▸ hcrest)
      · exact hother a ha c (mem_append_left _ hcrest) hcds

theorem foldl_renameKey (ds : List Text) (map : List (Text × A)) (fs : List Finding) (hnodup : ds.Nodup)
    (hmem : ∀ d ∈ ds, d ∈ keys map) (hkeys : (keys map).Nodup) :
    (Free g ds (keys map) → (ds.foldl g.renameKey (map, fs)).1.Perm
      (map.map fun e => (if e.1 ∈ ds then g.red e.1 else e.1, e.2))) ∧
    (¬Free g ds (keys map) → (ds.foldl g.renameKey (map, fs)).1.length < map.length) := by
  induction ds generalizing map fs with
  | nil => exact ⟨fun _ => by simp, fun h => absurd ⟨.nil, nofun⟩ h⟩
  | cons d ds ih =>
    obtain ⟨hd, hds⟩ := nodup_cons.1 hnodup
    rcases swapRemove_cases d map with ⟨hnot, -⟩ | ⟨val, rest, hsome, hperm⟩
    · exact absurd (hmem d mem_cons_self) hnot
    · have hks : (keys map).Perm (d :: keys rest) := hperm.map Prod.fst
      obtain ⟨hdrest, hrest⟩ := nodup_cons.1 (hks.nodup_iff.1 hkeys)
      have hdsrest : ∀ a ∈ ds, a ∈ keys rest := fun a ha =>
        (mem_cons.1 (hks.mem_iff.1 (hmem a (mem_cons_of_mem _ ha)))).resolve_left fun heq => hd (heq ▸ ha)
      have hstep : g.renameKey (map, fs) d = (insert (g.red d) val rest, fs ++ g.scan d) := by
        rw [SecretGuard.renameKey, hsome]
      rw [foldl_cons, hstep]
      by_cases hred : g.red d ∈ keys rest
      · refine ⟨fun hfree => ?_, fun _ => (length_foldl_renameKey_le ds _).trans_lt ?_⟩
        · by_cases hlater : g.red d ∈ ds
          · exact absurd rfl (rel_of_pairwise_cons hfree.1 hlater).1
          · refine absurd rfl (hfree.2 d mem_cons_self _ (hks.mem_iff.2 (mem_cons_of_mem _ hred)) ?_)
            exact not_mem_cons_of_ne_of_not_mem (fun heq => hdrest (heq ▸ hred)) hlater
        · rw [length_insert, if_pos hred, hperm.length_eq]
          exact Nat.lt_succ_self _
      · have hinsert : insert (g.red d) val rest = rest ++ [(g.red d, val)] := if_neg hred
        have hkeys' : keys (rest ++ [(g.red d, val)]) = keys rest ++ [g.red d] := map_append
        obtain ⟨hyes, hno⟩ := ih (rest ++ [(g.red d, val)]) (fs ++ g.scan d) hds
          (fun a ha => hkeys' ▸ mem_append_left _ (hdsrest a ha))
          (hkeys' ▸ hrest.append (nodup_singleton _) (by simpa using hred))
        rw [hinsert, free_cons hks hdrest hdsrest hred, ← hkeys']
        refine ⟨fun hfree => (hyes hfree).trans ?_, fun hfree => (hno hfree).trans_eq ?_⟩
        · refine List.Perm.trans ?_ (hperm.map _).symm
          have hreds : g.red d ∉ ds := fun h => hred (hdsrest _ h)
          have hsame : (rest.map fun e => (if e.1 ∈ ds then g.red e.1 else e.1, e.2)) =
              rest.map fun e => (if e.1 ∈ d :: ds then g.red e.1 else e.1, e.2) := by
            refine map_congr_left fun e he => ?_
            have hne : e.1 ≠ d := fun heq => hdrest (heq ▸ mem_map_of_mem he)
            simp only [mem_cons, hne, false_or]
          rw [map_append, map_singleton, if_neg hreds, hsame, map_cons, if_pos mem_cons_self]
          exact perm_append_singleton _ _
        · rw [length_append, hperm.length_eq]
          rfl

theorem free_iff_apart {ks : List Text} (hks : ks.Nodup) : Free g (ks.filter g.dirty) ks ↔ Apart g ks := by
  have hclean : ∀ {c}, c ∈ ks → c ∉ ks.filter g.dirty → g.red c = c := fun hc hcd =>
    red_of_not_dirty fun hd => hcd (mem_filter.2 ⟨hc, hd⟩)
  rw [Free, Apart, pairwise_and_iff]
  constructor
  · rintro ⟨⟨hlater, hpair⟩, hother⟩
    have hinj : ∀ a ∈ ks, ∀ b ∈ ks, a ∈ ks.filter g.dirty → g.red a = g.red b → a = b := by
      intro a ha b hb had heq
      by_cases hbd : b ∈ ks.filter g.dirty
      · by_contra hne
        have : Std.Symm fun a b => g.red a ≠ g.red b := ⟨fun _ _ h => h.symm⟩
        exact hpair.forall had hbd hne heq
      · exact absurd (heq.trans (hclean hb hbd)) (hother a had b hb hbd)
    refine ⟨List.Nodup.map_on (fun a ha b hb heq => ?_) hks, hlater⟩
    by_cases had : a ∈ ks.filter g.dirty
    · exact hinj a ha b hb had heq
    · by_cases hbd : b ∈ ks.filter g.dirty
      · exact (hinj b hb a ha hbd heq.symm).symm
      · rw [← hclean ha had, ← hclean hb hbd, heq]
  · rintro ⟨hnodup, hlater⟩
    have hinj := inj_on_of_nodup_map hnodup
    have hsub := fun {a} (ha : a ∈ ks.filter g.dirty) => (mem_filter.1 ha).1
    refine ⟨⟨hlater, ?_⟩, fun a ha c hc hcd heq => ?_⟩
    · exact (hks.filter _).imp_of_mem fun ha hb hne heq => hne (hinj (hsub ha) (hsub hb) heq)
    · have hac : a = c := hinj (hsub ha) hc (heq.trans (hclean hc hcd).symm)
      exact hcd (hac ▸ ha)

theorem renameKeys_cases (g : SecretGuard) (map : List (Text × A)) (hkeys : (keys map).Nodup) :
    (Apart g (keys map) → (g.renameKeys map).1.Perm (map.map fun e => (g.red e.1, e.2))) ∧
      (¬Apart g (keys map) → (g.renameKeys map).1.length < map.length) := by
  obtain ⟨hyes, hno⟩ := foldl_renameKey (g := g) ((keys map).filter g.dirty) map [] (hkeys.filter _)
    (fun d hd => (mem_filter.1 hd).1) hkeys
  rw [free_iff_apart hkeys] at hyes hno
  refine ⟨fun hapart => (hyes hapart).trans (List.Perm.of_eq (map_congr_left fun e he => ?_)), hno⟩
  by_cases hd : g.dirty e.1 = true
  · have hmem : e.1 ∈ keys map := mem_map_of_mem he
    rw [if_pos (mem_filter.2 ⟨hmem, hd⟩)]
  · rw [if_neg fun h => hd (mem_filter.1 h).2, red_of_not_dirty hd]

/-! ### Values -/

theorem keys_walkFields (map : List (Text × Value N)) : keys (g.walkFields map) = keys map := by
  induction map with
  | nil => rfl
  | cons e map ih => exact congrArg (e.1 :: ·) ih

variable {red : Text → Text}

theorem length_redactedFields {map ws : List (Text × Value N)} (h : RedactedFields red map ws) :
    ws.length = map.length ∧ keys ws = (keys map).map red := by
  induction map generalizing ws with
  | nil =>
    cases h
    exact ⟨rfl, rfl⟩
  | cons e map ih =>
    obtain ⟨x, xs, rfl, -, hrest⟩ := h
    obtain ⟨hlen, hkeys⟩ := ih hrest
    exact ⟨congrArg (· + 1) hlen, congrArg (red e.1 :: ·) hkeys⟩

theorem eq_of_perm {xs ys : List (Text × A)} (hperm : xs.Perm ys) (hkeys : keys xs = keys ys)
    (hnodup : (keys xs).Nodup) : xs = ys := by
  induction xs generalizing ys with
  | nil => exact hperm.nil_eq
  | cons e xs ih =>
    cases ys with
    | nil => cases hkeys
    | cons f ys =>
      obtain ⟨hkey, hrest⟩ := List.cons.inj hkeys
      obtain ⟨he, hxs⟩ := nodup_cons.1 hnodup
      obtain rfl : e = f := (mem_cons.1 (hperm.mem_iff.1 mem_cons_self)).resolve_right fun hmem =>
        he (hrest ▸ mem_map_of_mem hmem)
      rw [ih (perm_cons e |>.1 hperm) hrest hxs]

def SecretGuard.redFields (g : SecretGuard) (map : List (Text × Value N)) : List (Text × Value N) :=
  (g.walkFields map).map fun e => (g.red e.1, e.2.1)

mutual
theorem redacted_walk_iff : ∀ v : Value N, Valid v → (Redacted g.red v (g.walkJson v).1 ↔ KeysApart g v)
  | .null, _ | .bool _, _ | .number _, _ => by simp [Redacted, SecretGuard.walkJson, KeysApart]
  | .string s, _ => by
    refine iff_of_true ?_ trivial
    rw [Redacted, SecretGuard.walkJson]
    split_ifs with hscan
    · rw [red_of_scan (List.isEmpty_iff.1 hscan)]
    · rfl
  | .array items, hv => by
    rw [Redacted, SecretGuard.walkJson, KeysApart, ← redactedItems_walk_iff items hv]
    constructor
    · rintro ⟨ws, hws, h⟩
      cases hws
      exact h
    · exact fun h => ⟨_, rfl, h⟩
  | .object map, hv => by
    obtain ⟨hnodup, hfields⟩ := hv
    have hkeys : keys (g.walkFields map) = keys map := keys_walkFields map
    obtain ⟨hyes, hno⟩ := renameKeys_cases g (g.walkFields map) (hkeys ▸ hnodup)
    rw [hkeys] at hyes hno
    rw [Redacted, SecretGuard.walkJson, KeysApart, ← redactedFields_walk_iff map hfields]
    constructor
    · rintro ⟨entries, ws, hentries, hperm, h⟩
      cases hentries
      obtain ⟨hlen, hws⟩ := length_redactedFields h
      have hapart : Apart g (keys map) := by
        by_contra hnot
        have hwalked := congrArg List.length hkeys
        have hsame := hperm.length_eq
        simp only [keys, length_map] at hwalked hsame
        exact (hno hnot).ne (hsame.trans (hlen.trans hwalked.symm))
      have hredKeys : keys (g.redFields map) = (keys map).map g.red := by
        rw [← hkeys, SecretGuard.redFields, keys, keys, map_map, map_map]
        rfl
      have hsame : g.redFields map = ws := by
        refine eq_of_perm (List.Perm.trans ?_ hperm) (hredKeys.trans hws.symm) (hredKeys ▸ hapart.1)
        exact (List.Perm.of_eq map_map.symm).trans ((hyes hapart).map fun e => (e.1, e.2.1)).symm
      exact ⟨hapart, hsame ▸ h⟩
    · rintro ⟨hapart, h⟩
      exact ⟨_, _, rfl, ((hyes hapart).map fun e => (e.1, e.2.1)).trans (List.Perm.of_eq map_map), h⟩

theorem redactedItems_walk_iff : ∀ vs : List (Value N), ValidItems vs →
    (RedactedItems g.red vs ((g.walkItems vs).map Prod.fst) ↔ KeysApartItems g vs)
  | [], _ => iff_of_true rfl trivial
  | v :: vs, h => by
    rw [KeysApartItems, ← redacted_walk_iff v h.1, ← redactedItems_walk_iff vs h.2]
    constructor
    · rintro ⟨x, xs, heq, hx, hxs⟩
      cases heq
      exact ⟨hx, hxs⟩
    · exact fun h => ⟨_, _, rfl, h.1, h.2⟩

theorem redactedFields_walk_iff : ∀ map : List (Text × Value N), ValidFields map →
    (RedactedFields g.red map (g.redFields map) ↔ KeysApartFields g map)
  | [], _ => iff_of_true rfl trivial
  | (k, v) :: map, h => by
    rw [KeysApartFields, ← redacted_walk_iff v h.1, ← redactedFields_walk_iff map h.2]
    constructor
    · rintro ⟨x, xs, heq, hx, hxs⟩
      cases heq
      exact ⟨hx, hxs⟩
    · exact fun h => ⟨_, _, rfl, h.1, h.2⟩
end

theorem textsFields_eq (map : List (Text × Value N)) :
    Value.textsFields map = map.flatMap fun e => e.1 :: e.2.texts := by
  induction map with
  | nil => rfl
  | cons e map ih => rw [Value.textsFields, ih, flatMap_cons, cons_append]

mutual
theorem texts_redacted : ∀ {v w : Value N}, Redacted red v w → w.texts.Perm (v.texts.map red)
  | .null, _, h | .bool _, _, h | .number _, _, h => by
    rw [Redacted] at h
    · cases h
      exact .refl _
    all_goals exact nofun
  | .string s, _, h => by
    cases h
    exact .refl _
  | .array items, _, h => by
    obtain ⟨ws, rfl, h⟩ := h
    exact texts_redactedItems h
  | .object map, _, h => by
    obtain ⟨entries, ws, rfl, hperm, h⟩ := h
    refine List.Perm.trans ?_ (texts_redactedFields h)
    rw [Value.texts, textsFields_eq, textsFields_eq]
    exact hperm.flatMap_right _

theorem texts_redactedItems : ∀ {vs ws : List (Value N)}, RedactedItems red vs ws →
    (Value.textsItems ws).Perm ((Value.textsItems vs).map red)
  | [], _, h => by
    cases h
    exact .refl _
  | v :: vs, _, h => by
    obtain ⟨x, xs, rfl, hx, hxs⟩ := h
    rw [Value.textsItems, Value.textsItems, map_append]
    exact (texts_redacted hx).append (texts_redactedItems hxs)

theorem texts_redactedFields : ∀ {map ws : List (Text × Value N)}, RedactedFields red map ws →
    (Value.textsFields ws).Perm ((Value.textsFields map).map red)
  | [], _, h => by
    cases h
    exact .refl _
  | (k, v) :: map, _, h => by
    obtain ⟨x, xs, rfl, hx, hxs⟩ := h
    rw [Value.textsFields, Value.textsFields, map_cons, map_append]
    exact ((texts_redacted hx).append (texts_redactedFields hxs)).cons _
end

/-- **A value keeps its shape and loses its known values if and only if keys are apart in all of its objects and no
redaction of its texts holds a known value.** -/
theorem redactJson_keeps_iff (g : SecretGuard) (v : Value N) (hv : Valid v) :
    Keeps g v (g.redactJson v).1 ↔ KeysApart g v ∧ ∀ text ∈ v.texts, ¬g.HasKnown (g.red text) := by
  rw [Keeps, SecretGuard.redactJson, ← redacted_walk_iff v hv]
  refine and_congr_right fun h => ?_
  have htexts := texts_redacted h
  constructor
  · exact fun hout text ht => hout _ (htexts.mem_iff.2 (mem_map_of_mem ht))
  · intro hin text ht
    obtain ⟨t, ht', rfl⟩ := mem_map.1 (htexts.mem_iff.1 ht)
    exact hin t ht'

/-- A record under a credential, with the credential in it. -/
theorem redactJson_keeps_user :
    let v : Value ℕ := .object [("abcdefgh".toList, .array [.string "abcdefgh!".toList]), ("n".toList, .number 7)]
    Keeps user v (user.redactJson v).1 := by
  intro v
  have hvalid : Valid v := ⟨by decide, ⟨trivial, trivial⟩, trivial, trivial⟩
  have hapart : KeysApart user v := ⟨⟨by decide, by decide⟩, ⟨trivial, trivial⟩, trivial, trivial⟩
  exact (redactJson_keeps_iff user v hvalid).2 ⟨hapart, by decide⟩

def tokenPair : SecretGuard :=
  ((SecretGuard.new fun _ => noMatches).registerValue "token"
    "abcdefgh".toList).registerValue "token" "ijklmnop".toList

/-- **Two credentials as keys**: the entry of the first one is lost. -/
theorem entry_lost :
    let v : Value ℕ := .object [("abcdefgh".toList, .number 1), ("ijklmnop".toList, .number 2)]
    (tokenPair.redactJson v).1 = .object [("[REDACTED:token]".toList, .number 2)] ∧
      ¬Keeps tokenPair v (tokenPair.redactJson v).1 := by
  intro v
  have hout : (tokenPair.redactJson v).1 = .object [("[REDACTED:token]".toList, .number 2)] := by rfl
  refine ⟨hout, ?_⟩
  rw [hout]
  rintro ⟨⟨entries, ws, hentries, hperm, hfields⟩, -⟩
  cases hentries
  exact absurd (hperm.length_eq.trans (length_redactedFields hfields).1) (by decide)

end Redact
