/-
**Pages of the unified search.**

A data search runs its sources concurrently, appends what each of them returns as it finishes, and
sorts the hits by their scores alone.
-/

import Pensieve.SearchCache

/-! ### Stable sorting -/

namespace StableSort

open List

variable {A K : Type} [LinearOrder K] {key : A → K}

abbrev Descending (key : A → K) (l : List A) : Prop := l.Pairwise fun a b => key b ≤ key a

theorem key_le_head {a : A} {l : List A} (h : Descending key (a :: l)) : ∀ b ∈ a :: l, key b ≤ key a := by
  intro b hb
  rcases mem_cons.1 hb with rfl | hb
  · exact le_rfl
  · exact (pairwise_cons.1 h).1 b hb

/-- **Two descending orders of the same entries agree on the first `n`** if they agree on the ties that begin among
these. -/
theorem take_eq {n : ℕ} {l l' : List A} (h : Descending key l) (h' : Descending key l') (hperm : l.Perm l')
    (hties : ∀ k, (l.countP fun a => k < key a) < n → (l.filter fun a => key a = k) = l'.filter fun a => key a = k) :
    l.take n = l'.take n := by
  induction n generalizing l l' with
  | zero => rw [take_zero, take_zero]
  | succ n ih =>
    cases l with
    | nil =>
      rw [hperm.symm.eq_nil]
    | cons a t =>
      cases l' with
      | nil => exact absurd hperm.eq_nil (by simp)
      | cons b t' =>
        have hkey : key a = key b := le_antisymm (key_le_head h' a (hperm.mem_iff.1 mem_cons_self))
          (key_le_head h b (hperm.mem_iff.2 mem_cons_self))
        have hnone : ((a :: t).countP fun c => key a < key c) = 0 :=
          countP_eq_zero.2 fun c hc => by simpa using key_le_head h c hc
        have hclass := hties (key a) (by omega)
        rw [filter_cons_of_pos (by simp), filter_cons_of_pos (by simp [hkey])] at hclass
        obtain ⟨rfl, -⟩ := List.cons.inj hclass
        rw [take_succ_cons, take_succ_cons]
        refine congrArg (a :: ·) (ih (pairwise_cons.1 h).2 (pairwise_cons.1 h').2
          ((perm_cons a).1 hperm) fun k hk => ?_)
        have hwhole := hties k (by
          rw [countP_cons]
          split <;> omega)
        by_cases hak : key a = k
        · rw [filter_cons_of_pos (by simpa using hak), filter_cons_of_pos (by simpa using hak)] at hwhole
          exact (List.cons.inj hwhole).2
        · rwa [filter_cons_of_neg (by simpa using hak), filter_cons_of_neg (by simpa using hak)] at hwhole

theorem descending_insertionSort (key : A → K) (l : List A) :
    Descending key (l.insertionSort fun a b => key b ≤ key a) := by
  have htotal : Std.Total fun a b : A => key b ≤ key a := ⟨fun a b => le_total (key b) (key a)⟩
  have htrans : IsTrans A fun a b => key b ≤ key a := ⟨fun _ _ _ hab hbc => le_trans hbc hab⟩
  exact pairwise_insertionSort _ l

theorem filter_insertionSort (key : A → K) (l : List A) (k : K) :
    ((l.insertionSort fun a b => key b ≤ key a).filter fun a => key a = k) = l.filter fun a => key a = k := by
  have htotal : Std.Total fun a b : A => key b ≤ key a := ⟨fun a b => le_total (key b) (key a)⟩
  have htrans : IsTrans A fun a b => key b ≤ key a := ⟨fun _ _ _ hab hbc => le_trans hbc hab⟩
  have hclass : (l.filter fun a => key a = k).Pairwise fun a b => key b ≤ key a := by
    refine pairwise_of_forall_mem_list fun a ha b hb => ?_
    have hka : key a = k := by simpa using (mem_filter.1 ha).2
    have hkb : key b = k := by simpa using (mem_filter.1 hb).2
    rw [hka, hkb]
  have hsub := (sublist_insertionSort hclass filter_sublist).filter fun a => decide (key a = k)
  rw [filter_filter] at hsub
  simp only [Bool.and_self] at hsub
  refine (hsub.eq_of_length ?_).symm
  exact (((perm_insertionSort _ l).filter _).length_eq).symm

end StableSort

namespace Search

open List

section Pages

variable {F R : Type} [LinearOrder F] {w : World F R} {query : String} {range : Option (ℤ × ℤ)}

/-! ### The ranked list -/

def legHits (w : World F R) (query : String) (range : Option (ℤ × ℤ)) (finished : List ResolvedSource) :
    List (Hit F R) :=
  finished.flatMap fun s => (w.searchOneSource s query range).map fun q => ⟨s, q.1, q.2⟩

/-- **No ties across sources** among the hits that fewer than `n` hits beat. -/
def Untied (w : World F R) (query : String) (range : Option (ℤ × ℤ)) (sources : List ResolvedSource) (n : ℕ) : Prop :=
  ∀ a ∈ legHits w query range sources, ∀ b ∈ legHits w query range sources, a.score = b.score →
    ((legHits w query range sources).countP fun c => a.score < c.score) < n → a.source = b.source

variable {sources finished finished' : List ResolvedSource} {n : ℕ}

omit [LinearOrder F] in
theorem legHits_perm (h : finished.Perm finished') :
    (legHits w query range finished).Perm (legHits w query range finished') :=
  h.flatMap_right _

theorem flatMap_eq_of_perm {A B : Type} [DecidableEq A] {l l' : List A} {g : A → List B} (h : l.Perm l') {a : A}
    (hother : ∀ b ∈ l, b ≠ a → g b = []) : l.flatMap g = l'.flatMap g := by
  have honly : ∀ l₀ : List A, (∀ b ∈ l₀, b ≠ a → g b = []) → l₀.flatMap g = (List.replicate (l₀.count a) a).flatMap g := by
    intro l₀ hl₀
    induction l₀ with
    | nil => rfl
    | cons b l₀ ih =>
      have hrest := ih fun c hc => hl₀ c (mem_cons_of_mem _ hc)
      by_cases hb : b = a
      · subst hb
        rw [count_cons_self, replicate_succ, flatMap_cons, flatMap_cons, hrest]
      · rw [count_cons_of_ne hb, flatMap_cons, hl₀ b mem_cons_self hb, nil_append, hrest]
  rw [honly l hother, honly l' fun b hb => hother b (h.mem_iff.2 hb), h.count_eq]

theorem filter_legHits_eq (huntied : Untied w query range sources n) (h : finished.Perm sources)
    (h' : finished'.Perm sources) {k : F}
    (hk : ((legHits w query range finished).countP fun c => k < c.score) < n) :
    ((legHits w query range finished).filter fun a => a.score = k) =
      (legHits w query range finished').filter fun a => a.score = k := by
  unfold legHits
  rw [filter_flatMap, filter_flatMap]
  by_cases hsome : ∃ a ∈ legHits w query range sources, a.score = k
  · obtain ⟨a, ha, hak⟩ := hsome
    refine flatMap_eq_of_perm (h.trans h'.symm) (a := a.source) fun s hs hne => ?_
    rw [filter_eq_nil_iff]
    intro b hb hbk
    have hbk' : b.score = k := by simpa using hbk
    have hmem : b ∈ legHits w query range sources := mem_flatMap.2 ⟨s, h.mem_iff.1 hs, hb⟩
    have hcount : ((legHits w query range sources).countP fun c => a.score < c.score) < n := by
      rw [hak, ← (legHits_perm h).countP_eq]
      exact hk
    have hsource : a.source = b.source := huntied a ha b hmem (hak.trans hbk'.symm) hcount
    obtain ⟨q, -, rfl⟩ := mem_map.1 hb
    exact hne hsource.symm
  · have hnone : ∀ σ : List ResolvedSource, σ.Perm sources →
        (σ.flatMap fun s => ((w.searchOneSource s query range).map fun q => (⟨s, q.1, q.2⟩ : Hit F R)).filter
          fun a => a.score = k) = [] := by
      intro σ hσ
      rw [flatMap_eq_nil_iff]
      intro s hs
      rw [filter_eq_nil_iff]
      intro b hb hbk
      exact hsome ⟨b, mem_flatMap.2 ⟨s, hσ.mem_iff.1 hs, hb⟩, by simpa using hbk⟩
    rw [hnone finished h, hnone finished' h']

theorem take_sortByScore_eq (huntied : Untied w query range sources n) (h : finished.Perm sources)
    (h' : finished'.Perm sources) :
    (sortByScore (legHits w query range finished)).take n = (sortByScore (legHits w query range finished')).take n := by
  have hperm : (legHits w query range finished).Perm (legHits w query range finished') :=
    legHits_perm (h.trans h'.symm)
  have hsorted : ∀ hits : List (Hit F R), (sortByScore hits).Perm hits := fun hits => perm_insertionSort _ hits
  refine StableSort.take_eq (StableSort.descending_insertionSort Hit.score _)
    (StableSort.descending_insertionSort Hit.score _) (((hsorted _).trans hperm).trans (hsorted _).symm) fun k hk => ?_
  unfold sortByScore
  rw [StableSort.filter_insertionSort, StableSort.filter_insertionSort]
  refine filter_legHits_eq huntied h h' ?_
  rwa [(hsorted _).countP_eq] at hk

/-! ### Pages -/

theorem take_eq_of_le {A : Type} {l l' : List A} {m n : ℕ} (h : l.take n = l'.take n) (hm : m ≤ n) :
    l.take m = l'.take m := by
  have htake := congrArg (List.take m) h
  rwa [take_take, take_take, Nat.min_eq_left hm] at htake

theorem rerankStage_congr {rerank : Option (String → List (Hit F R) → Option (List F))} {hits hits' : List (Hit F R)}
    {limit : ℕ} (h : hits.take n = hits'.take n) (hlimit : limit ≤ n) (hcandidates : rerankCandidates ≤ n) :
    rerankStage rerank query hits limit = rerankStage rerank query hits' limit := by
  have hhead : ∀ l : List (Hit F R), l.take (min l.length (max rerankCandidates limit)) =
      l.take (max rerankCandidates limit) := by
    intro l
    rw [take_eq_take_iff]
    omega
  unfold rerankStage
  split
  · exact take_eq_of_le h hlimit
  · dsimp only
    rw [hhead, hhead, take_eq_of_le h (max_le hcandidates hlimit)]

def Request.page (r : Request) (offset limit : ℕ) : Request :=
  { r with
    offset := some offset
    limit := some limit }

theorem clamped_page (r : Request) (offset : ℕ) {limit : ℕ} (hpos : 1 ≤ limit) (hmax : limit ≤ maxLimit) :
    (r.page offset limit).clamped = limit := by
  show max 1 (min limit maxLimit) = limit
  omega

theorem computePage_eq (w : World F R) (r : Request) (range : Option (ℤ × ℤ)) (finished : List ResolvedSource)
    {offset limit : ℕ} (hpos : 1 ≤ limit) (hmax : limit ≤ maxLimit) (hfetch : offset + limit ≤ maxLimit * 4) :
    computePage w (r.page offset limit) range finished =
      ((rerankStage w.rerank r.query (sortByScore (legHits w r.query range finished)) (offset + limit)).drop offset).take
        limit := by
  unfold computePage
  rw [clamped_page r offset hpos hmax]
  show ((searchData w finished r.query range (min (offset + limit) (maxLimit * 4))).drop offset).take limit = _
  rw [Nat.min_eq_left hfetch]
  rfl

end Pages

def logs : ResolvedSource := ⟨"prod", "logs"⟩

def traces : ResolvedSource := ⟨"prod", "traces"⟩

def twoSources (ofLogs ofTraces : List (ℕ × ℕ)) : World ℕ ℕ where
  maxSources := 10
  databases := [("prod", some ["logs", "traces"])]
  parseTimeRange := fun _ => none
  searchOneSource := fun s _ _ => if s = logs then ofLogs else if s = traces then ofTraces else []
  rerank := none

def anyRequest : Request := ⟨"error", .all, none, none, none⟩

end Search
