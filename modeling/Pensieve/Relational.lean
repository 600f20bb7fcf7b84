/-
**Rows, expressions and orders.**

A row is a list of named values, an expression reads some of the columns of a row, and a table is a
list of rows over one list of columns.
-/

import Mathlib.Tactic

namespace Relational

open List

abbrev Col := String

/-- The values of a database: `default` is the null, `truth` tells a filter what to keep. -/
class Scalar (V : Type) extends Inhabited V where
  truth : V → Bool
  le : V → V → Bool
  ofNat : ℕ → V
  le_total : ∀ a b, (le a b || le b a) = true
  le_trans : ∀ a b c, le a b = true → le b c = true → le a c = true

abbrev Row (V : Type) := List (Col × V)

structure Expr (V : Type) where
  cols : List Col
  eval : (Col → V) → V
  eval_congr : ∀ ρ σ : Col → V, (∀ c ∈ cols, ρ c = σ c) → eval ρ = eval σ

structure Aggregate (V : Type) where
  cols : List Col
  eval : List (Col → V) → V
  eval_congr : ∀ ρs σs : List (Col → V), List.Forall₂ (fun ρ σ => ∀ c ∈ cols, ρ c = σ c) ρs σs → eval ρs = eval σs

structure Table (V : Type) where
  cols : List Col
  rows : List (Row V)
  wf : ∀ r ∈ rows, r.map Prod.fst = cols

variable {V : Type} [Scalar V]

def field (r : Row V) (c : Col) : V := (r.lookup c).getD default

/-! ### Fields -/

@[simp] theorem field_cons_self (c : Col) (v : V) (r : Row V) : field ((c, v) :: r) c = v := by
  simp [field]

variable {c : Col}

theorem field_cons_of_ne {d : Col} (h : c ≠ d) (v : V) (r : Row V) : field ((d, v) :: r) c = field r c := by
  simp [field, lookup_cons, beq_false_of_ne h]

theorem field_append_left {r s : Row V} (h : c ∉ s.map Prod.fst) : field (r ++ s) c = field r c := by
  induction r with
  | nil =>
    induction s with
    | nil => rfl
    | cons q s ih =>
      obtain ⟨hne, hrest⟩ : c ≠ q.1 ∧ c ∉ s.map Prod.fst := by simpa using h
      rw [nil_append, field_cons_of_ne hne]
      exact ih hrest
  | cons q r ih =>
    by_cases hq : c = q.1
    · subst hq
      rw [cons_append, field_cons_self, field_cons_self]
    · rw [cons_append, field_cons_of_ne hq, field_cons_of_ne hq, ih]

theorem field_append_right {r s : Row V} (h : c ∉ r.map Prod.fst) : field (r ++ s) c = field s c := by
  induction r with
  | nil => rfl
  | cons q r ih =>
    obtain ⟨hne, hrest⟩ : c ≠ q.1 ∧ c ∉ r.map Prod.fst := by simpa using h
    rw [cons_append, field_cons_of_ne hne, ih hrest]

theorem field_filter {r : Row V} {p : Col → Bool} (h : p c = true) :
    field (r.filter fun q => p q.1) c = field r c := by
  induction r with
  | nil => rfl
  | cons q r ih =>
    by_cases hq : c = q.1
    · have hpos : p q.1 = true := hq ▸ h
      rw [hq, filter_cons, if_pos hpos, field_cons_self, field_cons_self]
    · rw [field_cons_of_ne hq, ← ih, filter_cons]
      split
      · exact field_cons_of_ne hq ..
      · rfl

theorem field_map {cs : List Col} {f : Col → V} (h : c ∈ cs) : field (cs.map fun x => (x, f x)) c = f c := by
  induction cs with
  | nil => cases h
  | cons x cs ih =>
    by_cases hx : c = x
    · rw [hx, map_cons, field_cons_self]
    · rw [map_cons, field_cons_of_ne hx, ih (by simpa [hx] using h)]

/-! ### Sort keys -/

/-- Row `ρ` may come before row `σ`: keys are compared one after another, `true` is descending. -/
def precedes : List (Expr V × Bool) → (Col → V) → (Col → V) → Bool
  | [], _, _ => true
  | (e, desc) :: ks, ρ, σ =>
    let x := if desc then e.eval σ else e.eval ρ
    let y := if desc then e.eval ρ else e.eval σ
    Scalar.le x y && (!Scalar.le y x || precedes ks ρ σ)

def keyCols (keys : List (Expr V × Bool)) : List Col := keys.flatMap fun k => k.1.cols

theorem precedes_total (keys : List (Expr V × Bool)) (ρ σ : Col → V) :
    (precedes keys ρ σ || precedes keys σ ρ) = true := by
  induction keys with
  | nil => rfl
  | cons k keys ih =>
    obtain ⟨e, desc⟩ := k
    have htotal := Scalar.le_total (e.eval ρ) (e.eval σ)
    cases desc <;> simp only [precedes, Bool.or_eq_true, Bool.and_eq_true, Bool.not_eq_true'] at * <;> grind

theorem precedes_trans (keys : List (Expr V × Bool)) (ρ σ τ : Col → V)
    (h₁ : precedes keys ρ σ = true) (h₂ : precedes keys σ τ = true) : precedes keys ρ τ = true := by
  induction keys with
  | nil => rfl
  | cons k keys ih =>
    obtain ⟨e, desc⟩ := k
    have htrans := fun a b c => Scalar.le_trans (e.eval a) (e.eval b) (e.eval c)
    cases desc <;> simp only [precedes, Bool.or_eq_true, Bool.and_eq_true, Bool.not_eq_true', if_true] at * <;> grind

theorem precedes_congr {keys : List (Expr V × Bool)} {ρ ρ' σ σ' : Col → V}
    (hρ : ∀ c ∈ keyCols keys, ρ c = ρ' c) (hσ : ∀ c ∈ keyCols keys, σ c = σ' c) :
    precedes keys ρ σ = precedes keys ρ' σ' := by
  induction keys with
  | nil => rfl
  | cons k keys ih =>
    obtain ⟨e, desc⟩ := k
    have hcols : keyCols ((e, desc) :: keys) = e.cols ++ keyCols keys := rfl
    rw [hcols] at hρ hσ
    have h₁ : e.eval ρ = e.eval ρ' := e.eval_congr ρ ρ' fun c hc => hρ c (mem_append_left _ hc)
    have h₂ : e.eval σ = e.eval σ' := e.eval_congr σ σ' fun c hc => hσ c (mem_append_left _ hc)
    have hrest := ih (fun c hc => hρ c (mem_append_right _ hc))
      fun c hc => hσ c (mem_append_right _ hc)
    simp only [precedes, h₁, h₂, hrest]

/-- `le` is an order, up to ties. -/
structure Orders {α : Type*} (le : α → α → Bool) : Prop where
  trans : ∀ a b c, le a b = true → le b c = true → le a c = true
  total : ∀ a b, (le a b || le b a) = true

variable {α : Type*}

theorem orders_precedes (keys : List (Expr V × Bool)) (env : α → Col → V) :
    Orders fun a b => precedes keys (env a) (env b) where
  trans := fun a b c => precedes_trans keys (env a) (env b) (env c)
  total := fun a b => precedes_total keys (env a) (env b)

theorem exists_sorted {le : α → α → Bool} (h : Orders le) (l : List α) :
    ∃ l' : List α, l'.Perm l ∧ l'.Pairwise fun a b => le a b = true :=
  ⟨l.mergeSort le, mergeSort_perm _ _, pairwise_mergeSort h.trans h.total l⟩

/-- **A sorted part of a list extends to the sorted list**: the elements that satisfy `p`, in an
order that is allowed, are what some allowed order of all elements leaves of them. -/
theorem exists_sorted_extension {le : α → α → Bool} (h : Orders le) {p : α → Bool} {l whole : List α}
    (hperm : l.Perm (whole.filter p)) (hsorted : l.Pairwise fun a b => le a b = true) :
    ∃ l' : List α, l'.Perm whole ∧ (l'.Pairwise fun a b => le a b = true) ∧ l'.filter p = l := by
  -- the other elements go behind, and a stable sort leaves the order within `l` alone
  have hall : (l ++ whole.filter fun a => !p a).Perm whole :=
    (hperm.append_right _).trans (filter_append_perm p whole)
  refine ⟨(l ++ whole.filter fun a => !p a).mergeSort le, ?_, ?_, ?_⟩
  · exact (mergeSort_perm _ _).trans hall
  · exact pairwise_mergeSort h.trans h.total _
  · have hp : l.filter p = l := by
      refine filter_eq_self.mpr fun a ha => ?_
      exact (mem_filter.mp (hperm.mem_iff.mp ha)).2
    have hsub := sublist_mergeSort h.trans h.total hsorted
      (sublist_append_left l (whole.filter fun a => !p a))
    have hsub' := hsub.filter p
    rw [hp] at hsub'
    refine (hsub'.eq_of_length ?_).symm
    have hlen := (((mergeSort_perm _ le).trans hall).filter p).length_eq
    rw [hlen, hperm.length_eq]

/-- Values that the elements of a list take are taken by elements at its front, in some order of
the list. -/
theorem exists_representatives {β : Type*} {f : α → β} {d : List β} {whole : List α} (hd : d.Nodup)
    (hmem : ∀ x ∈ d, x ∈ whole.map f) : ∃ reps rest : List α, (reps ++ rest).Perm whole ∧ reps.map f = d := by
  induction d generalizing whole with
  | nil => exact ⟨[], whole, .refl _, rfl⟩
  | cons x d ih =>
    obtain ⟨a, ha, hax⟩ := mem_map.mp (hmem x mem_cons_self)
    obtain ⟨s, t, rfl⟩ := append_of_mem ha
    obtain ⟨hx, hd'⟩ := nodup_cons.mp hd
    -- the other values are not taken by `a`
    have hmem' : ∀ y ∈ d, y ∈ (s ++ t).map f := by
      intro y hy
      obtain ⟨b, hb, hby⟩ := mem_map.mp (hmem y (mem_cons_of_mem x hy))
      have hne : b ≠ a := by
        rintro rfl
        exact hx (hax ▸ hby ▸ hy)
      refine mem_map.mpr ⟨b, ?_, hby⟩
      simpa [hne] using hb
    obtain ⟨reps, rest, hperm, hreps⟩ := ih hd' hmem'
    refine ⟨a :: reps, rest, ?_, by rw [map_cons, hax, hreps]⟩
    exact (hperm.cons a).trans perm_middle.symm

/-! ### Groups -/

def keyOf (keys : List (Col × Expr V)) (r : Row V) : Row V := keys.map fun k => (k.1, k.2.eval (field r))

/-- One row for each value of the keys, with the aggregates of its group; without keys there is one
group, even if it is empty. -/
def groupRows [DecidableEq V] (keys : List (Col × Expr V)) (aggs : List (Col × Aggregate V))
    (rows : List (Row V)) : List (Row V) :=
  if keys = [] then [aggs.map fun a => (a.1, a.2.eval (rows.map field))]
  else (rows.map (keyOf keys)).dedup.map fun k =>
    k ++ aggs.map fun a => (a.1, a.2.eval ((rows.filter fun r => keyOf keys r = k).map field))

theorem groupRows_map [DecidableEq V] {keys : List (Col × Expr V)} {aggs : List (Col × Aggregate V)}
    {rows : List (Row V)} {f : Row V → Row V}
    (hkeys : ∀ r ∈ rows, ∀ k ∈ keys, ∀ c ∈ k.2.cols, field (f r) c = field r c)
    (haggs : ∀ r ∈ rows, ∀ a ∈ aggs, ∀ c ∈ a.2.cols, field (f r) c = field r c) :
    groupRows keys aggs (rows.map f) = groupRows keys aggs rows := by
  have hkey : ∀ r ∈ rows, keyOf keys (f r) = keyOf keys r := by
    intro r hr
    refine map_congr_left fun k hk => ?_
    rw [k.2.eval_congr (field (f r)) (field r) (hkeys r hr k hk)]
  have hagg : ∀ part : List (Row V), part ⊆ rows → ∀ a ∈ aggs,
      a.2.eval ((part.map f).map field) = a.2.eval (part.map field) := by
    intro part hpart a ha
    refine a.2.eval_congr _ _ ?_
    rw [map_map, forall₂_map_left_iff, forall₂_map_right_iff]
    refine forall₂_same.mpr fun r hr => ?_
    exact haggs r (hpart hr) a ha
  unfold groupRows
  split
  · congr 1
    refine map_congr_left fun a ha => ?_
    rw [hagg rows (fun r hr => hr) a ha]
  · have hmap : (rows.map f).map (keyOf keys) = rows.map (keyOf keys) := by
      rw [map_map]
      exact map_congr_left hkey
    rw [hmap]
    refine map_congr_left fun k _ => ?_
    congr 1
    refine map_congr_left fun a ha => ?_
    have hpart : (rows.map f).filter (fun r => keyOf keys r = k) = (rows.filter fun r => keyOf keys r = k).map f := by
      rw [filter_map]
      congr 1
      refine filter_congr fun r hr => ?_
      simp [hkey r hr]
    rw [hpart, hagg _ (filter_sublist.subset) a ha]

end Relational
