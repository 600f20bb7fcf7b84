/-
**Rows in any order, in an order, and the first rows of an order.**

A language with orders and limits leaves its rows in one of three standings: in any order, in an
order that was asked for, or as the first rows of such an order.
-/

import Pensieve.Relational

namespace Relational

open List

variable {α β : Type}

/-! ### Limits -/

def limited (limit : Option ℕ) (l : List α) : List α :=
  match limit with
  | some n => l.take n
  | none => l

theorem limited_map (f : α → β) (limit : Option ℕ) (l : List α) :
    limited limit (l.map f) = (limited limit l).map f := by
  cases limit with
  | none => rfl
  | some n => exact map_take.symm

theorem limited_sublist (limit : Option ℕ) (l : List α) : (limited limit l).Sublist l := by
  cases limit with
  | none => exact .refl l
  | some n => exact take_sublist n l

theorem take_limited {limit : Option ℕ} {n : ℕ} (h : ∀ m ∈ limit, n ≤ m) (l : List α) :
    (limited limit l).take n = l.take n := by
  cases limit with
  | none => rfl
  | some m => rw [limited, take_take, Nat.min_eq_left (h m rfl)]

theorem exists_limited_filter (limit : Option ℕ) {p : α → Bool} {l whole : List α}
    (hperm : l.Perm (whole.filter p)) : ∃ w : List α, w.Perm whole ∧ (limited limit w).filter p = limited limit l := by
  have hl : ∀ a ∈ l, p a = true := fun a ha => (mem_filter.mp (hperm.mem_iff.mp ha)).2
  have hall : (l ++ whole.filter fun a => !p a).Perm whole :=
    (hperm.append_right _).trans (filter_append_perm p whole)
  have hdropped : ∀ k, ((whole.filter fun a => !p a).take k).filter p = [] := by
    intro k
    refine filter_eq_nil_iff.mpr fun a ha => ?_
    have hmem := (mem_filter.mp (mem_of_mem_take ha)).2
    simpa using hmem
  cases limit with
  | none =>
    refine ⟨_, hall, ?_⟩
    have hnil := hdropped (whole.filter fun a => !p a).length
    rw [take_length] at hnil
    rw [limited, filter_append, hnil, append_nil]
    exact filter_eq_self.mpr hl
  | some n =>
    -- the elements that `p` drops stand behind all that it keeps
    refine ⟨_, hall, ?_⟩
    rw [limited, take_append, filter_append, hdropped, append_nil]
    exact filter_eq_self.mpr fun a ha => hl a (mem_of_mem_take ha)

/-! ### Standings -/

inductive Standing where
  | any
  | sorted
  | first
deriving DecidableEq

def Standing.taken : Standing → Standing
  | .any => .any
  | .sorted => .first
  | .first => .first

/-- **What a standing allows** of the elements of `whole`, up to a limit. -/
def Arranged (s : Standing) (le : α → α → Bool) (limit : Option ℕ) (whole l : List α) : Prop :=
  ∃ w : List α, w.Perm whole ∧ match s with
    | .any => l = limited limit w
    | .sorted => l.Perm (limited limit w) ∧ l.Pairwise fun a b => le a b = true
    | .first => (w.Pairwise fun a b => le a b = true) ∧ l = limited limit w

namespace Arranged

variable {s : Standing} {le le' : α → α → Bool} {limit : Option ℕ} {whole whole' l l' : List α}

theorem subset (h : Arranged s le limit whole l) : l ⊆ whole := by
  obtain ⟨w, hw, hl⟩ := h
  have hsub : limited limit w ⊆ whole := fun a ha =>
    hw.mem_iff.mp ((limited_sublist limit w).subset ha)
  cases s with
  | any => exact hl ▸ hsub
  | sorted => exact fun a ha => hsub (hl.1.mem_iff.mp ha)
  | first => exact hl.2 ▸ hsub

theorem congr_le (hle : ∀ a ∈ whole, ∀ b ∈ whole, le a b = le' a b)
    (h : Arranged s le limit whole l) : Arranged s le' limit whole l := by
  obtain ⟨w, hw, hl⟩ := h
  have hsame : ∀ m : List α, m ⊆ whole → (m.Pairwise fun a b => le a b = true) →
      m.Pairwise fun a b => le' a b = true := by
    intro m hm hsorted
    refine hsorted.imp_of_mem fun {a b} ha hb hab => ?_
    rw [← hle a (hm ha) b (hm hb)]
    exact hab
  refine ⟨w, hw, ?_⟩
  cases s with
  | any => exact hl
  | sorted =>
    refine ⟨hl.1, hsame l (fun a ha => hw.mem_iff.mp ?_) hl.2⟩
    exact (limited_sublist limit w).subset (hl.1.mem_iff.mp ha)
  | first => exact ⟨hsame w hw.subset hl.1, hl.2⟩

theorem map_iff {g : α → β} {k : β → α} (hk : Function.LeftInverse k g) {le : β → β → Bool}
    {out : List β} : Arranged s le limit (whole.map g) out ↔
      ∃ l : List α, Arranged s (fun a b => le (g a) (g b)) limit whole l ∧ out = l.map g := by
  have hback : ∀ m : List β, m ⊆ whole.map g → (m.map k).map g = m := by
    intro m hm
    rw [map_map]
    refine (map_congr_left fun b hb => ?_).trans (map_id m)
    obtain ⟨a, -, rfl⟩ := mem_map.mp (hm hb)
    rw [Function.comp_apply, hk a]
    rfl
  have hpull : ∀ m : List β, m ⊆ whole.map g → (m.Pairwise fun a b => le a b = true) →
      (m.map k).Pairwise fun a b => le (g a) (g b) = true := by
    intro m hm hsorted
    rw [← hback m hm, pairwise_map] at hsorted
    exact hsorted
  have hforth : ∀ m : List α, (m.map g).map k = m := by
    intro m
    rw [map_map, hk.comp_eq_id, map_id]
  constructor
  · rintro ⟨w, hw, hl⟩
    have hwhole : (w.map k).Perm whole := hforth whole ▸ hw.map k
    have hwg := hback w hw.subset
    have hout : out ⊆ whole.map g := Arranged.subset ⟨w, hw, hl⟩
    cases s with
    | any =>
      refine ⟨limited limit (w.map k), ⟨_, hwhole, rfl⟩, ?_⟩
      rw [← limited_map, hwg]
      exact hl
    | sorted =>
      refine ⟨out.map k, ⟨_, hwhole, ?_, ?_⟩, (hback out hout).symm⟩
      · rw [limited_map]
        exact hl.1.map k
      · exact hpull out hout hl.2
    | first =>
      refine ⟨limited limit (w.map k), ⟨_, hwhole, ?_, rfl⟩, ?_⟩
      · exact hpull w hw.subset hl.1
      · rw [← limited_map, hwg]
        exact hl.2
  · rintro ⟨l, ⟨w, hw, hl⟩, rfl⟩
    refine ⟨w.map g, hw.map g, ?_⟩
    cases s with
    | any => exact hl ▸ (limited_map g limit w).symm
    | sorted =>
      refine ⟨?_, pairwise_map.mpr hl.2⟩
      rw [limited_map]
      exact hl.1.map g
    | first => exact ⟨pairwise_map.mpr hl.1, hl.2 ▸ (limited_map g limit w).symm⟩

theorem of_perm (hperm : whole.Perm whole') (h : Arranged s le limit whole l) : Arranged s le limit whole' l := by
  obtain ⟨w, hw, hl⟩ := h
  exact ⟨w, hw.trans hperm, hl⟩

theorem of_first (h : Arranged .first le limit whole l) : Arranged s le limit whole l := by
  obtain ⟨w, hw, hsorted, rfl⟩ := h
  refine ⟨w, hw, ?_⟩
  cases s with
  | any => rfl
  | sorted => exact ⟨.refl _, hsorted.sublist (limited_sublist limit w)⟩
  | first => exact ⟨hsorted, rfl⟩

theorem perm (h : Arranged s le none whole l) : l.Perm whole := by
  obtain ⟨w, hw, hl⟩ := h
  cases s with
  | any => exact hl ▸ hw
  | sorted => exact hl.1.trans hw
  | first => exact hl.2 ▸ hw

theorem exists_limited {n : ℕ} (hn : ∀ m ∈ limit, n ≤ m)
    (h : Arranged s.taken le (some n) whole l') : ∃ l : List α, Arranged s le limit whole l ∧ l' = l.take n := by
  obtain ⟨w, hw, hl⟩ := h
  cases s with
  | any => exact ⟨limited limit w, ⟨w, hw, rfl⟩, hl.trans (take_limited hn w).symm⟩
  | sorted =>
    obtain ⟨hsorted, rfl⟩ := hl
    refine ⟨limited limit w, ⟨w, hw, .refl _, ?_⟩, (take_limited hn w).symm⟩
    exact hsorted.sublist (limited_sublist limit w)
  | first =>
    obtain ⟨hsorted, rfl⟩ := hl
    exact ⟨limited limit w, ⟨w, hw, hsorted, rfl⟩, (take_limited hn w).symm⟩

theorem exists_unsorted (hany : ∀ a b, le a b = true) (h : Arranged .sorted le' limit whole l') :
    ∃ l : List α, Arranged s le limit whole l ∧ l'.Perm l ∧ l'.Pairwise fun a b => le' a b = true := by
  obtain ⟨w, hw, hperm, hsorted⟩ := h
  have hfree : w.Pairwise fun a b => le a b = true := pairwise_of_forall hany
  exact ⟨limited limit w, of_first ⟨w, hw, hfree, rfl⟩, hperm, hsorted⟩

section Orders

variable (hle : Orders le)

include hle

theorem exists_of_whole (s : Standing) (limit : Option ℕ) (whole : List α) :
    ∃ l : List α, Arranged s le limit whole l := by
  obtain ⟨w, hw, hsorted⟩ := exists_sorted hle whole
  exact ⟨limited limit w, of_first ⟨w, hw, hsorted, rfl⟩⟩

theorem exists_perm (hs : s ≠ .first) (h : Arranged .any le limit whole l') :
    ∃ l : List α, Arranged s le limit whole l ∧ l.Perm l' := by
  obtain ⟨w, hw, rfl⟩ := h
  cases s with
  | any => exact ⟨_, ⟨w, hw, rfl⟩, .refl _⟩
  | sorted =>
    obtain ⟨l, hl, hsorted⟩ := exists_sorted hle (limited limit w)
    exact ⟨l, ⟨w, hw, hl, hsorted⟩, hl⟩
  | first => exact absurd rfl hs

theorem exists_filtered (hs : s ≠ .first) {p : α → Bool}
    (h : Arranged s le limit (whole.filter p) l') : ∃ l : List α, Arranged s le limit whole l ∧ l.filter p = l' := by
  obtain ⟨w', hw', hl⟩ := h
  obtain ⟨w, hw, hfilter⟩ := exists_limited_filter limit hw'
  cases s with
  | any => exact ⟨limited limit w, ⟨w, hw, rfl⟩, hfilter.trans hl.symm⟩
  | sorted =>
    obtain ⟨hperm, hsorted⟩ := hl
    rw [← hfilter] at hperm
    obtain ⟨l, hl, hlsorted, hlp⟩ := exists_sorted_extension hle hperm hsorted
    exact ⟨l, ⟨w, hw, hl, hlsorted⟩, hlp⟩
  | first => exact absurd rfl hs

/-- **Elements with given images**: different values that the elements take, up to a limit, are the
values of some elements up to the limit. -/
theorem exists_image (limit : Option ℕ) (hs : s ≠ .first) {f : α → β} {d : List β} (hd : d.Nodup)
    (hmem : ∀ x, x ∈ d ↔ x ∈ whole.map f) :
    ∃ l : List α, Arranged s le limit whole l ∧ ∀ x, x ∈ limited limit d ↔ x ∈ l.map f := by
  obtain ⟨reps, rest, hperm, hreps⟩ := exists_representatives hd fun x hx => (hmem x).mp hx
  have himage : ∀ x, x ∈ limited limit d ↔ x ∈ (limited limit (reps ++ rest)).map f := by
    intro x
    cases limit with
    | none => rw [limited, limited, hmem, (hperm.map f).mem_iff]
    | some n =>
      rw [limited, limited, take_append, map_append, map_take, hreps]
      constructor
      · exact fun hx => mem_append_left _ hx
      · intro hx
        rcases mem_append.mp hx with hx | hx
        · exact hx
        · -- there is room behind the representatives, which then stand for every value
          obtain ⟨a, ha, rfl⟩ := mem_map.mp hx
          have hpos : reps.length < n := by
            by_contra hle
            have hzero : n - reps.length = 0 := by omega
            rw [hzero, take_zero] at ha
            cases ha
          have hlen : d.length ≤ n := by
            rw [← hreps, length_map]
            omega
          rw [take_of_length_le hlen, hmem]
          have hrest : a ∈ reps ++ rest := mem_append_right _ (mem_of_mem_take ha)
          exact mem_map_of_mem (hperm.mem_iff.mp hrest)
  have hreached : Arranged .any le limit whole (limited limit (reps ++ rest)) := ⟨reps ++ rest, hperm, rfl⟩
  obtain ⟨l, hl, hlp⟩ := exists_perm hle hs hreached
  exact ⟨l, hl, fun x => (himage x).trans (hlp.map f).mem_iff.symm⟩

end Orders

end Arranged

end Relational
