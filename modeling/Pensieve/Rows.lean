/-
**Tables of rows.**

A table is a list of rows, and a `key` reads off a row the column of the table's primary key.  The
statements are those of SQL:
-/

import Mathlib.Data.List.Nodup

namespace Rows

open List

-- under a name of its own: membership among texts is decided with it
instance lawfulText : LawfulBEq (List Char) := inferInstance

variable {R K : Type*}

/-- `UPDATE … SET f WHERE p`. -/
def updateWhere (p : R → Bool) (f : R → R) (rows : List R) : List R := rows.map fun r => if p r then f r else r

/-- `INSERT … ON CONFLICT DO NOTHING`: the row `r`, unless a row `q` with `conflict q r` is there. -/
def insertNew (conflict : R → R → Bool) (r : R) (rows : List R) : List R :=
  if rows.any fun q => conflict q r then rows else rows ++ [r]

variable {p : R → Bool} {f : R → R} {rows : List R} {key : R → K}

variable {r : R}

theorem mem_updateWhere : r ∈ updateWhere p f rows ↔ ∃ q ∈ rows, (p q = true ∧ r = f q) ∨ (p q = false ∧ r = q) := by
  simp only [updateWhere, mem_map]
  constructor
  · rintro ⟨q, hq, rfl⟩
    cases hp : p q with
    | true => exact ⟨q, hq, .inl ⟨hp, by simp⟩⟩
    | false => exact ⟨q, hq, .inr ⟨hp, by simp⟩⟩
  · rintro ⟨q, hq, ⟨hp, rfl⟩ | ⟨hp, rfl⟩⟩
    · exact ⟨q, hq, by simp [hp]⟩
    · exact ⟨r, hq, by simp [hp]⟩

theorem forall_updateWhere {I : R → Prop} (h : ∀ r ∈ rows, I r)
    (hf : ∀ r ∈ rows, p r = true → I r → I (f r)) : ∀ r ∈ updateWhere p f rows, I r := by
  intro r hr
  obtain ⟨q, hq, ⟨hp, rfl⟩ | ⟨-, rfl⟩⟩ := mem_updateWhere.mp hr
  · exact hf q hq hp (h q hq)
  · exact h _ hq

theorem map_key_updateWhere (hf : ∀ r, key (f r) = key r) : (updateWhere p f rows).map key = rows.map key := by
  simp only [updateWhere, map_map]
  refine map_congr_left fun r _ => ?_
  simp only [Function.comp_apply]
  split
  · exact hf r
  · rfl

theorem updateWhere_of_forall_not (h : ∀ r ∈ rows, p r = false) : updateWhere p f rows = rows := by
  refine (map_congr_left fun r hr => ?_).trans (map_id rows)
  simp [h r hr]

variable {conflict : R → R → Bool}

theorem mem_insertNew {q : R} (h : q ∈ insertNew conflict r rows) : q ∈ rows ∨ q = r := by
  unfold insertNew at h
  split at h
  · exact .inl h
  · simpa using h

theorem subset_insertNew : rows ⊆ insertNew conflict r rows := by
  unfold insertNew
  split
  · exact List.Subset.refl rows
  · exact subset_append_left rows [r]

theorem nodup_insertNew (hc : ∀ q, key q = key r → conflict q r = true) (h : (rows.map key).Nodup) :
    ((insertNew conflict r rows).map key).Nodup := by
  unfold insertNew
  split
  · exact h
  · rename_i hno
    rw [map_append, nodup_append]
    refine ⟨h, by simp, ?_⟩
    rintro k hk k' hk' rfl
    obtain ⟨q, hq, rfl⟩ := mem_map.mp hk
    have hkey : key q = key r := by simpa using hk'
    exact hno (any_eq_true.mpr ⟨q, hq, hc q hkey⟩)

theorem eq_of_key_eq (h : (rows.map key).Nodup) {q : R} (hr : r ∈ rows) (hq : q ∈ rows)
    (hk : key r = key q) : r = q :=
  inj_on_of_nodup_map h hr hq hk

theorem find?_eq_some_of_unique (hr : r ∈ rows) (hp : p r = true) (hunique : ∀ q ∈ rows, p q = true → q = r) :
    rows.find? p = some r := by
  cases hfind : rows.find? p with
  | none => exact absurd hp (find?_eq_none.1 hfind r hr)
  | some q => rw [hunique q (mem_of_find?_eq_some hfind) (find?_some hfind)]

theorem filter_key_eq [DecidableEq K] (h : (rows.map key).Nodup) (hr : r ∈ rows) :
    (rows.filter fun q => key q = key r) = [r] := by
  induction rows with
  | nil => cases hr
  | cons q rows ih =>
    rw [map_cons, nodup_cons] at h
    rcases mem_cons.1 hr with rfl | hr
    · rw [filter_cons_of_pos (by simp), filter_eq_nil_iff.2]
      intro q hq hkey
      exact h.1 (of_decide_eq_true hkey ▸ mem_map_of_mem hq)
    · have hne : key q ≠ key r := fun heq => h.1 (heq ▸ mem_map_of_mem hr)
      rw [filter_cons_of_neg (by simpa using hne)]
      exact ih h.2 hr

/-- Each row has become a row of the second table, with its key and related to it by `rel`. -/
def Evolves (key : R → K) (rel : R → R → Prop) (before after : List R) : Prop :=
  ∀ r ∈ before, ∃ r' ∈ after, key r' = key r ∧ rel r r'

variable {rel : R → R → Prop} {before middle after : List R}

theorem Evolves.of_subset (hrefl : ∀ r, rel r r) (h : before ⊆ after) : Evolves key rel before after :=
  fun r hr => ⟨r, h hr, rfl, hrefl r⟩

theorem Evolves.trans (htrans : ∀ a b c, rel a b → rel b c → rel a c)
    (h₁ : Evolves key rel before middle) (h₂ : Evolves key rel middle after) : Evolves key rel before after := by
  intro r hr
  obtain ⟨q, hq, hkq, hrq⟩ := h₁ r hr
  obtain ⟨s, hs, hks, hqs⟩ := h₂ q hq
  exact ⟨s, hs, hks.trans hkq, htrans _ _ _ hrq hqs⟩

theorem Evolves.insertNew (hrefl : ∀ r, rel r r) : Evolves key rel rows (insertNew conflict r rows) :=
  .of_subset hrefl subset_insertNew

theorem Evolves.updateWhere (hrefl : ∀ r, rel r r) (hkey : ∀ r, key (f r) = key r)
    (hf : ∀ r ∈ rows, p r = true → rel r (f r)) : Evolves key rel rows (updateWhere p f rows) := by
  intro r hr
  cases hp : p r with
  | true => exact ⟨f r, mem_updateWhere.mpr ⟨r, hr, .inl ⟨hp, rfl⟩⟩, hkey r, hf r hr hp⟩
  | false => exact ⟨r, mem_updateWhere.mpr ⟨r, hr, .inr ⟨hp, rfl⟩⟩, rfl, hrefl r⟩

/-! ### Two tables side by side -/

variable {Q : Type*} {sim : Q → R → Prop} {left : List Q}

theorem forall₂_updateWhere {p' : Q → Bool} {f' : Q → Q} (h : List.Forall₂ sim left rows)
    (hf : ∀ q, ∀ r ∈ rows, sim q r → sim (if p' q then f' q else q) (if p r then f r else r)) :
    List.Forall₂ sim (updateWhere p' f' left) (updateWhere p f rows) := by
  induction h with
  | nil => exact .nil
  | @cons q r left rows hqr _ ih =>
    exact .cons (hf q r (.head _) hqr) (ih fun a b hb => hf a b (.tail _ hb))

theorem any_eq_of_forall₂ {c : Q → Bool} {d : R → Bool} (h : List.Forall₂ sim left rows)
    (hcd : ∀ q, ∀ r ∈ rows, sim q r → c q = d r) : left.any c = rows.any d := by
  induction h with
  | nil => rfl
  | cons hqr _ ih =>
    rw [any_cons, any_cons, hcd _ _ (.head _) hqr, ih fun q r hr => hcd q r (.tail _ hr)]

theorem all_eq_of_forall₂ {c : Q → Bool} {d : R → Bool} (h : List.Forall₂ sim left rows)
    (hcd : ∀ q, ∀ r ∈ rows, sim q r → c q = d r) : left.all c = rows.all d := by
  induction h with
  | nil => rfl
  | cons hqr _ ih =>
    rw [all_cons, all_cons, hcd _ _ (.head _) hqr, ih fun q r hr => hcd q r (.tail _ hr)]

theorem lookup_of_mem {V : Type*} [BEq K] [LawfulBEq K] {pairs : List (K × V)} (hnodup : (pairs.map Prod.fst).Nodup) {k : K}
    {v : V} (h : (k, v) ∈ pairs) : pairs.lookup k = some v := by
  induction pairs with
  | nil => cases h
  | cons p pairs ih =>
    rw [map_cons, nodup_cons] at hnodup
    rcases mem_cons.1 h with rfl | h
    · simp
    · have hne : k ≠ p.1 := by
        rintro rfl
        exact hnodup.1 (mem_map.2 ⟨_, h, rfl⟩)
      rw [lookup_cons, beq_false_of_ne hne]
      exact ih hnodup.2 h

theorem flatMap_filter_perm [DecidableEq K] {keys : List K} {l : List R} (hnodup : keys.Nodup)
    (hmem : ∀ a ∈ l, key a ∈ keys) : (keys.flatMap fun k => l.filter (key · = k)).Perm l := by
  induction keys generalizing l with
  | nil =>
    cases l with
    | nil => exact .nil
    | cons a l => cases hmem a (mem_cons_self ..)
  | cons k keys ih =>
    obtain ⟨hk, hnodup⟩ := nodup_cons.1 hnodup
    rw [flatMap_cons]
    have hrest : (keys.flatMap fun k' => l.filter (key · = k')) =
        keys.flatMap fun k' => (l.filter fun a => !decide (key a = k)).filter (key · = k') := by
      refine flatMap_congr fun k' hk' => ?_
      rw [filter_filter]
      refine filter_congr fun a _ => ?_
      by_cases ha : key a = k'
      · have hne : k' ≠ k := fun h => hk (h ▸ hk')
        simp [ha, hne]
      · simp [ha]
    rw [hrest]
    have hsub := ih (l := l.filter fun a => !decide (key a = k)) hnodup fun a ha => by
      obtain ⟨hal, hne⟩ := mem_filter.1 ha
      exact (mem_cons.1 (hmem a hal)).resolve_left (by simpa using hne)
    exact (hsub.append_left _).trans (filter_append_perm ..)

end Rows
