/-
**The paths of a vault.**

A vault is planned from rows and edges that come in any order, and a note is to keep the path that
it had.  The paths are given out by the ids of the notes, and one that is taken gets a number: a
note whose path an earlier one was given loses it, whether the manifest has it or not.
-/

import Pensieve.BrainVault
import Pensieve.Rows

namespace Brain

open List

/-! ### The order of rows and edges -/

instance : Std.Antisymm fun a b : EdgeRow => a.key ≤ b.key where
  antisymm a b hab hba := by
    obtain ⟨s, d, t⟩ := a
    obtain ⟨s', d', t'⟩ := b
    have hkey := le_antisymm hab hba
    simp only [EdgeRow.key, List.cons.injEq, and_true] at hkey
    obtain ⟨rfl, rfl, rfl⟩ := hkey
    rfl

instance : Std.Total fun a b : EdgeRow => a.key ≤ b.key where
  total a b := le_total a.key b.key

instance : IsTrans EdgeRow fun a b => a.key ≤ b.key where
  trans _ _ _ := le_trans

theorem sortedEdges_perm {edges edges' : List EdgeRow} (h : edges'.Perm edges) :
    edges'.insertionSort (fun a b : EdgeRow => a.key ≤ b.key) = edges.insertionSort fun a b => a.key ≤ b.key :=
  List.Perm.eq_of_pairwise' (pairwise_insertionSort _ _) (pairwise_insertionSort _ _)
    ((perm_insertionSort _ _).trans (h.trans (perm_insertionSort _ _).symm))

theorem planVault_perm (texts : Texts) (cfg : BrainConfig) (prior : Manifest) {nodes nodes' : List NoteRow}
    {edges edges' : List EdgeRow} (hnodup : (nodes.map NoteRow.id).Nodup) (hnodes : nodes'.Perm nodes)
    (hedges : edges'.Perm edges) : planVault texts cfg prior nodes' edges' = planVault texts cfg prior nodes edges := by
  unfold planVault planFiles relatedLinks
  rw [byId_perm hnodup hnodes, sortedEdges_perm hedges]

/-! ### Numbered paths -/

def HasMd (path : Text) : Prop := ∃ a b, path = a ++ dotMd ++ b

theorem HasMd.cons {c : Char} {cs : Text} (h : HasMd cs) : HasMd (c :: cs) := by
  obtain ⟨a, b, rfl⟩ := h
  exact ⟨c :: a, b, rfl⟩

theorem HasMd.tail {c : Char} {cs : Text} (h : HasMd (c :: cs)) (hc : c = '.' → ∀ rest, cs ≠ 'm' :: 'd' :: rest) :
    HasMd cs := by
  obtain ⟨a, b, hab⟩ := h
  cases a with
  | nil =>
    obtain ⟨rfl, hcs⟩ := List.cons.inj hab
    exact absurd hcs (hc rfl b)
  | cons x a => exact ⟨a, b, (List.cons.inj hab).2⟩

theorem replaceMd_cons (s : Text) {c : Char} {cs : Text} (h : c = '.' → ∀ rest, cs ≠ 'm' :: 'd' :: rest) :
    replaceMd s (c :: cs) = c :: replaceMd s cs := by
  rw [replaceMd]
  rintro rest rfl rfl
  exact h rfl rest rfl

variable {path : Text}

theorem replaceMd_of_not_hasMd {s : Text} (h : ¬ HasMd path) : replaceMd s path = path := by
  induction path with
  | nil => rfl
  | cons c cs ih =>
    have hc : c = '.' → ∀ rest, cs ≠ 'm' :: 'd' :: rest := by
      rintro rfl rest rfl
      exact h ⟨[], rest, rfl⟩
    rw [replaceMd_cons s hc, ih fun htail => h htail.cons]

theorem length_numbered (n : ℕ) : 4 ≤ (numbered n).length := by
  simp [numbered, dotMd]

theorem hasMd_numbered (n : ℕ) (rest : Text) : HasMd (numbered n ++ rest) := ⟨'-' :: Nat.toDigits 10 n, rest, rfl⟩

theorem length_le_replaceMd (n : ℕ) (path : Text) : path.length ≤ (replaceMd (numbered n) path).length := by
  have hlong := length_numbered n
  induction path using replaceMd.induct with
  | case1 => exact Nat.zero_le _
  | case2 rest ih =>
    rw [replaceMd, length_append]
    simp only [length_cons]
    omega
  | case3 c cs hc ih =>
    rw [replaceMd_cons _ fun h rest heq => hc rest h heq, length_cons, length_cons]
    omega

theorem HasMd.numbered (h : HasMd path) (n : ℕ) :
    HasMd (replaceMd (numbered n) path) ∧ path.length < (replaceMd (Brain.numbered n) path).length := by
  have hlong := length_numbered n
  induction path using replaceMd.induct with
  | case1 =>
    obtain ⟨a, b, hab⟩ := h
    simp [dotMd] at hab
  | case2 rest ih =>
    rw [replaceMd, length_append]
    refine ⟨hasMd_numbered n _, ?_⟩
    have hrest := length_le_replaceMd n rest
    simp only [length_cons]
    omega
  | case3 c cs hc ih =>
    have hc' : c = '.' → ∀ rest, cs ≠ 'm' :: 'd' :: rest := fun h rest heq => hc rest h heq
    obtain ⟨hmd, hlt⟩ := ih (h.tail hc')
    rw [replaceMd_cons _ hc', length_cons, length_cons]
    exact ⟨hmd.cons, by omega⟩

theorem length_variants_lt (h : HasMd path) (n : ℕ) {j k : ℕ} (hjk : j < k) :
    (variants n path j).length < (variants n path k).length := by
  induction k generalizing n path j with
  | zero => omega
  | succ k ih =>
    obtain ⟨hmd, hlt⟩ := h.numbered (n + 1)
    cases j with
    | zero =>
      cases k with
      | zero => exact hlt
      | succ k => exact hlt.trans (ih hmd (n + 1) (Nat.succ_pos k))
    | succ j => exact ih hmd (n + 1) (by omega)

theorem avoid_ne_none {taken : List Text} (h : HasMd path) (n : ℕ) :
    avoid taken (taken.length + 1) n path ≠ none := by
  intro hnone
  have hall := avoid_eq_none hnone
  have hnodup : ((List.range (taken.length + 1)).map (variants n path)).Nodup := by
    refine List.Nodup.map_on (fun j _ k _ heq => ?_) nodup_range
    rcases lt_trichotomy j k with hjk | hjk | hjk
    · exact absurd (congrArg List.length heq) (length_variants_lt h n hjk).ne
    · exact hjk
    · exact absurd (congrArg List.length heq) (length_variants_lt h n hjk).ne'
  have hsub : (List.range (taken.length + 1)).map (variants n path) ⊆ taken := by
    intro p hp
    obtain ⟨k, hk, rfl⟩ := mem_map.1 hp
    exact hall k (mem_range.1 hk)
  have hle := (subperm_of_subset hnodup hsub).length_le
  rw [length_map, length_range] at hle
  omega

/-! ### Paths given out -/

/-- **The paths that are given out before an id comes**: of each note with a smaller id, its path, and every number of it
such that the path and all numbers before it were given out before that note. -/
inductive Occupied (cfg : BrainConfig) (prior : Manifest) (nodes : List NoteRow) : Text → Text → Prop
  | mk {id : Text} (c : NoteRow) (k : ℕ) : c ∈ nodes → included cfg c = true → c.id < id →
      (∀ j < k, Occupied cfg prior nodes c.id (variants 1 (notePath cfg prior c) j)) →
      Occupied cfg prior nodes id (variants 1 (notePath cfg prior c) k)

variable {cfg : BrainConfig} {prior : Manifest} {nodes : List NoteRow}

variable {row : NoteRow}

theorem place_eq_ok {done : Planned (List (Text × Text))} {paths : List (Text × Text)}
    (h : place cfg prior done row = .ok paths) :
    ∃ before p, done = .ok before ∧ paths = before ++ [(row.id, p)] ∧ p ∉ before.map Prod.snd ∧
      ∃ k, p = variants 1 (notePath cfg prior row) k ∧
        ∀ j < k, variants 1 (notePath cfg prior row) j ∈ before.map Prod.snd := by
  unfold place at h
  split at h
  · rename_i before
    dsimp only at h
    split at h
    · cases h
    · split at h
      · cases h
      · rename_i p hp
        cases h
        obtain ⟨hfree, k, hk, hbefore⟩ := avoid_eq_some hp
        exact ⟨before, p, rfl, rfl, hfree, k, hk, hbefore⟩
  · rename_i other hother
    exact absurd h (hother paths)

theorem assign_snoc (rows : List NoteRow) (row : NoteRow) :
    assign cfg prior (rows ++ [row]) = place cfg prior (assign cfg prior rows) row := by
  rw [assign, foldl_append]
  rfl

variable {pre post : List NoteRow}

theorem mem_front {c : NoteRow} (hnodup : (nodes.map NoteRow.id).Nodup)
    (hrows : byId cfg nodes = pre ++ row :: post) : c ∈ pre ↔ c ∈ nodes ∧ included cfg c = true ∧ c.id < row.id := by
  have hsorted : (byId cfg nodes).Pairwise (·.id < ·.id) := sorted_byId hnodup
  rw [hrows, pairwise_append, pairwise_cons] at hsorted
  obtain ⟨-, ⟨hpost, -⟩, hpre⟩ := hsorted
  have hmem : c ∈ byId cfg nodes ↔ c ∈ nodes ∧ included cfg c = true := mem_byId hnodup
  rw [← and_assoc, ← hmem, hrows]
  constructor
  · intro hc
    exact ⟨mem_append_left _ hc, hpre c hc row mem_cons_self⟩
  · rintro ⟨hc, hlt⟩
    rcases mem_append.1 hc with hc | hc
    · exact hc
    · rcases mem_cons.1 hc with rfl | hc
      · exact absurd hlt (lt_irrefl _)
      · exact absurd hlt (lt_asymm (hpost c hc))

theorem mem_assign (hnodup : (nodes.map NoteRow.id).Nodup)
    (hrows : byId cfg nodes = pre ++ row :: post) {paths : List (Text × Text)}
    (h : assign cfg prior pre = .ok paths) (p : Text) : p ∈ paths.map Prod.snd ↔ Occupied cfg prior nodes row.id p := by
  induction pre using List.reverseRecOn generalizing post row paths p with
  | nil =>
    cases h
    refine iff_of_false (by simp) ?_
    rintro ⟨c, k, hc, hincluded, hlt, -⟩
    exact absurd ((mem_front hnodup hrows).2 ⟨hc, hincluded, hlt⟩) (by simp)
  | append_singleton pre c ih =>
    rw [assign_snoc] at h
    obtain ⟨before, q, hbefore, rfl, hfree, k, rfl, hk⟩ := place_eq_ok h
    have hrows' : byId cfg nodes = pre ++ c :: (row :: post) := by rw [hrows, append_assoc]; rfl
    have hih := ih hrows' hbefore
    have hc := (mem_front hnodup hrows).1 (mem_append_right pre (mem_singleton_self c))
    rw [map_append, mem_append, map_singleton, mem_singleton]
    constructor
    · rintro (hp | rfl)
      · obtain ⟨d, m, hd, hincluded, hlt, hm⟩ := (hih p).1 hp
        exact .mk d m hd hincluded (hlt.trans hc.2.2) hm
      · exact .mk c k hc.1 hc.2.1 hc.2.2 fun j hj => (hih _).1 (hk j hj)
    · rintro ⟨d, m, hd, hincluded, hlt, hm⟩
      rcases mem_append.1 ((mem_front hnodup hrows).2 ⟨hd, hincluded, hlt⟩) with hdpre | hdc
      · have hlt' := ((mem_front hnodup hrows').1 hdpre).2.2
        exact .inl ((hih _).2 (.mk d m hd hincluded hlt' hm))
      · obtain rfl := mem_singleton.1 hdc
        rcases lt_trichotomy m k with hmk | rfl | hkm
        · exact .inl (hk m hmk)
        · exact .inr rfl
        · exact absurd ((hih _).2 (hm k hkm)) hfree

/-! ### What a plan is to be -/

/-- The row has a note below `notes/` that is not an entity's. -/
def Noted (cfg : BrainConfig) (prior : Manifest) (row : NoteRow) : Prop :=
  included cfg row = true ∧ row.memoryType ≠ "entity".toList ∧ "notes/".toList <+: notePath cfg prior row

def generatedPaths (cfg : BrainConfig) (prior : Manifest) (nodes : List NoteRow) : List Text :=
  ["README.md".toList, "CONTRIBUTING.md".toList, "index.md".toList] ++ (match cfg.layout with
    | .flat => []
    | .byRealm => (notedRealms (byId cfg nodes) (notePath cfg prior)).map realmIndexPath) ++ [manifestPath]

/-- **A plan that is as it is to be**: no two files have one path, each row that passes the filters has one note, and
the rows that the manifest has a path for keep it. -/
structure Proper (texts : Texts) (cfg : BrainConfig) (prior : Manifest) (nodes : List NoteRow) (plan : VaultPlan) :
    Prop where
  distinct : (plan.files.map VaultFile.path).Nodup
  oneNote : ∀ row ∈ nodes, included cfg row = true → ∃ p links,
    plan.manifest.entries.filter (·.memoryId = some row.id) = [⟨p, some row.id⟩] ∧
      ⟨p, texts.note row links cfg.filters.redactPrivateSpans⟩ ∈ plan.files
  stable : ∀ row ∈ nodes, included cfg row = true → ∀ p, prior.pathOf row.id = some p →
    ⟨p, some row.id⟩ ∈ plan.manifest.entries

/-- **The condition on the rows and the manifest**: all paths are valid, no path that the manifest has for a row is given
out before its id comes, no note's path is a page's, and realms that have notes have names that stay different. -/
structure Clear (cfg : BrainConfig) (prior : Manifest) (nodes : List NoteRow) : Prop where
  valid : ∀ row ∈ nodes, included cfg row = true → validPath (notePath cfg prior row) = true
  kept : ∀ row ∈ nodes, included cfg row = true → ∀ p, prior.pathOf row.id = some p →
    ¬ Occupied cfg prior nodes row.id p
  apart : ∀ row ∈ nodes, included cfg row = true → notePath cfg prior row ∉ generatedPaths cfg prior nodes
  realms : cfg.layout = .byRealm → ∀ a ∈ nodes, ∀ b ∈ nodes, Noted cfg prior a → Noted cfg prior b →
    sanitizeRealmSegment a.realm = sanitizeRealmSegment b.realm → a.realm = b.realm

/-! ### The paths of all rows -/

theorem assign_ids {rows : List NoteRow} {paths : List (Text × Text)} (h : assign cfg prior rows = .ok paths) :
    paths.map Prod.fst = rows.map NoteRow.id := by
  induction rows using List.reverseRecOn generalizing paths with
  | nil =>
    cases h
    rfl
  | append_singleton rows row ih =>
    rw [assign_snoc] at h
    obtain ⟨before, p, hbefore, rfl, -, -⟩ := place_eq_ok h
    rw [map_append, map_append, ih hbefore]
    rfl

theorem assign_nodup {rows : List NoteRow} {paths : List (Text × Text)} (h : assign cfg prior rows = .ok paths) :
    (paths.map Prod.snd).Nodup := by
  induction rows using List.reverseRecOn generalizing paths with
  | nil =>
    cases h
    exact nodup_nil
  | append_singleton rows row ih =>
    rw [assign_snoc] at h
    obtain ⟨before, p, hbefore, rfl, hfree, -⟩ := place_eq_ok h
    rw [map_append, map_singleton, ← concat_eq_append]
    exact (ih hbefore).concat hfree

theorem assign_split {paths : List (Text × Text)}
    (h : assign cfg prior (pre ++ row :: post) = .ok paths) :
    ∃ before p after, assign cfg prior pre = .ok before ∧ paths = before ++ (row.id, p) :: after ∧
      p ∉ before.map Prod.snd ∧ ∃ k, p = variants 1 (notePath cfg prior row) k ∧
        ∀ j < k, variants 1 (notePath cfg prior row) j ∈ before.map Prod.snd := by
  induction post using List.reverseRecOn generalizing paths with
  | nil =>
    rw [assign_snoc] at h
    obtain ⟨before, p, hbefore, rfl, hfree, hk⟩ := place_eq_ok h
    exact ⟨before, p, [], hbefore, rfl, hfree, hk⟩
  | append_singleton post last ih =>
    rw [← cons_append, ← append_assoc, assign_snoc] at h
    obtain ⟨all, q, hall, rfl, -, -⟩ := place_eq_ok h
    obtain ⟨before, p, after, hbefore, rfl, hfree, hk⟩ := ih hall
    exact ⟨before, p, after ++ [(last.id, q)], hbefore, by simp, hfree, hk⟩

theorem isPrefix_replaceMd {s pre : Text} (hpre : '.' ∉ pre) (hs : ∀ c ∈ s.head?, c ∉ pre)
    (hne : s ≠ []) : pre <+: replaceMd s path ↔ pre <+: path := by
  induction path using replaceMd.induct generalizing pre with
  | case1 => rfl
  | case2 rest ih =>
    rw [replaceMd]
    cases pre with
    | nil => simp
    | cons x pre =>
      cases s with
      | nil => exact absurd rfl hne
      | cons c s =>
        rw [cons_append, cons_prefix_cons, cons_prefix_cons]
        refine iff_of_false ?_ ?_
        · rintro ⟨rfl, -⟩
          exact hs x (by simp) mem_cons_self
        · rintro ⟨rfl, -⟩
          exact hpre mem_cons_self
  | case3 c cs hc ih =>
    rw [replaceMd_cons _ fun h rest heq => hc rest h heq]
    cases pre with
    | nil => simp
    | cons x pre =>
      rw [cons_prefix_cons, cons_prefix_cons]
      refine and_congr_right fun _ => ih (fun h => hpre (mem_cons_of_mem _ h)) ?_
      exact fun d hd hmem => hs d hd (mem_cons_of_mem _ hmem)

theorem isPrefix_variants (n : ℕ) (path : Text) (k : ℕ) :
    "notes/".toList <+: variants n path k ↔ "notes/".toList <+: path := by
  induction k generalizing n path with
  | zero => rfl
  | succ k ih =>
    rw [variants, ih]
    refine isPrefix_replaceMd (by decide) ?_ (cons_ne_nil _ _)
    intro c hc
    obtain rfl : '-' = c := by simpa [numbered] using hc
    decide

/-! ### Pages and numbered paths -/

theorem md_cases {u rest a b : Text} (hu : '.' ∉ u) (h : u ++ (dotMd ++ rest) = a ++ dotMd ++ b) :
    a = u ∨ ∃ a', a = u ++ dotMd ++ a' ∧ rest = a' ++ dotMd ++ b := by
  induction u generalizing a with
  | nil =>
    have hmd : '.' :: 'm' :: 'd' :: rest = a ++ dotMd ++ b := h
    match a with
    | [] => exact .inl rfl
    | [x] | [x, y] => simp [dotMd] at hmd
    | x :: y :: z :: a' =>
      simp only [cons_append, List.cons.injEq] at hmd
      obtain ⟨rfl, rfl, rfl, hrest⟩ := hmd
      exact .inr ⟨a', rfl, hrest⟩
  | cons c u ih =>
    rw [mem_cons, not_or] at hu
    cases a with
    | nil => exact absurd (List.cons.inj h).1.symm hu.1
    | cons x a =>
      obtain ⟨rfl, htail⟩ := List.cons.inj h
      rcases ih hu.2 htail with rfl | ⟨a', rfl, hrest⟩
      · exact .inl rfl
      · exact .inr ⟨a', rfl, hrest⟩

theorem replaceMd_eq_cons {n : ℕ} {rest : Text} {x : Char}
    (h : replaceMd (numbered n) path = x :: rest)
    (hx : x ≠ '-') : ∃ cs, path = x :: cs ∧ rest = replaceMd (numbered n) cs := by
  induction path using replaceMd.induct with
  | case1 => cases h
  | case2 cs ih =>
    rw [replaceMd] at h
    exact absurd (List.cons.inj h).1.symm hx
  | case3 c cs hc ih =>
    rw [replaceMd_cons _ fun h rest heq => hc rest h heq] at h
    obtain ⟨rfl, rfl⟩ := List.cons.inj h
    exact ⟨cs, rfl, rfl⟩

theorem digit_before_md {n : ℕ} {a b : Text} (h : replaceMd (numbered n) path = a ++ dotMd ++ b) :
    ∃ a' d, a = a' ++ [d] ∧ d.isDigit = true := by
  have hdigit : ∀ c ∈ Nat.toDigits 10 n, c.isDigit = true := fun c hc =>
    Nat.isDigit_of_mem_toDigits (by decide) (by decide) hc
  induction path using replaceMd.induct generalizing a with
  | case1 => simp [replaceMd, dotMd] at h
  | case2 rest ih =>
    rw [replaceMd, numbered, append_assoc] at h
    have hu : '.' ∉ '-' :: Nat.toDigits 10 n := by
      rw [mem_cons, not_or]
      exact ⟨by decide, fun hdot => absurd (hdigit '.' hdot) (by decide)⟩
    rcases md_cases hu h with rfl | ⟨a', rfl, hrest⟩
    · refine ⟨'-' :: (Nat.toDigits 10 n).dropLast, (Nat.toDigits 10 n).getLast Nat.toDigits_ne_nil, ?_,
        hdigit _ (getLast_mem _)⟩
      rw [cons_append, dropLast_append_getLast]
    · obtain ⟨a'', d, rfl, hd⟩ := ih hrest
      exact ⟨_, d, (append_assoc _ _ _).symm, hd⟩
  | case3 c cs hc ih =>
    rw [replaceMd_cons _ fun h rest heq => hc rest h heq] at h
    cases a with
    | nil =>
      obtain ⟨rfl, hmd⟩ := List.cons.inj h
      obtain ⟨cs', rfl, hd⟩ := replaceMd_eq_cons hmd (by decide)
      obtain ⟨cs'', rfl, -⟩ := replaceMd_eq_cons hd.symm (by decide)
      exact absurd rfl (hc cs'' rfl)
    | cons x a =>
      obtain ⟨a'', d, rfl, hd⟩ := ih (List.cons.inj h).2
      exact ⟨x :: a'', d, rfl, hd⟩

def Plain (path : Text) : Prop := ¬ HasMd path ∨ ∃ a c, path = a ++ c :: dotMd ∧ c.isDigit = false

theorem plain_generated (h : path ∈ generatedPaths cfg prior nodes) : Plain path := by
  unfold generatedPaths at h
  rw [mem_append, mem_append] at h
  rcases h with (h | h) | h
  · simp only [mem_cons, not_mem_nil, or_false] at h
    rcases h with rfl | rfl | rfl
    · exact .inr ⟨"READM".toList, 'E', rfl, by decide⟩
    · exact .inr ⟨"CONTRIBUTIN".toList, 'G', rfl, by decide⟩
    · exact .inr ⟨"inde".toList, 'x', rfl, by decide⟩
  · split at h
    · cases h
    · obtain ⟨realm, -, rfl⟩ := mem_map.1 h
      have hindex : "/index.md".toList = "/inde".toList ++ 'x' :: dotMd := by decide
      refine .inr ⟨"notes/".toList ++ sanitizeRealmSegment realm ++ "/inde".toList, 'x', ?_, by decide⟩
      exact (congrArg (_ ++ ·) hindex).trans (append_assoc _ _ _).symm
  · obtain rfl := mem_singleton.1 h
    refine .inl ?_
    rintro ⟨a, b, hab⟩
    have hinfix : dotMd <:+: manifestPath := ⟨a, b, hab.symm⟩
    exact absurd hinfix (by decide)

theorem eq_of_plain {n : ℕ} {q : Text} (hq : Plain q) (h : replaceMd (numbered n) path = q) : path = q := by
  rcases hq with hmd | ⟨a, c, rfl, hc⟩
  · by_cases hpath : HasMd path
    · exact absurd (h ▸ (hpath.numbered n).1) hmd
    · rwa [replaceMd_of_not_hasMd hpath] at h
  · have h' : replaceMd (numbered n) path = (a ++ [c]) ++ dotMd ++ [] := by simp [h]
    obtain ⟨a', d, heq, hd⟩ := digit_before_md h'
    obtain rfl := singleton_inj.1 (append_inj_right' heq rfl)
    rw [hc] at hd
    cases hd

theorem variants_succ (n : ℕ) (path : Text) (k : ℕ) :
    variants n path (k + 1) = replaceMd (numbered (n + k + 1)) (variants n path k) := by
  induction k generalizing n path with
  | zero => rfl
  | succ k ih =>
    rw [variants, ih, variants]
    congr 3
    omega

section Plan

variable {texts : Texts} {edges : List EdgeRow} {paths : List (Text × Text)}

theorem nodup_ids (hnodup : (nodes.map NoteRow.id).Nodup) : ((byId cfg nodes).map NoteRow.id).Nodup :=
  pairwise_map.2 ((sorted_byId hnodup).imp fun hlt => ne_of_lt hlt)

theorem assign_fst_nodup (hnodup : (nodes.map NoteRow.id).Nodup) (h : assign cfg prior (byId cfg nodes) = .ok paths) :
    (paths.map Prod.fst).Nodup := by
  rw [assign_ids h]
  exact nodup_ids hnodup

def givenPath (paths : List (Text × Text)) (row : NoteRow) : Text := (paths.lookup row.id).getD []

variable {row : NoteRow}

theorem givenPath_spec (hnodup : (nodes.map NoteRow.id).Nodup)
    (h : assign cfg prior (byId cfg nodes) = .ok paths) (hrow : row ∈ byId cfg nodes) :
    ¬ Occupied cfg prior nodes row.id (givenPath paths row) ∧
      ∃ k, givenPath paths row = variants 1 (notePath cfg prior row) k ∧
        ∀ j < k, Occupied cfg prior nodes row.id (variants 1 (notePath cfg prior row) j) := by
  have hfst := assign_fst_nodup hnodup h
  obtain ⟨pre, post, hrows⟩ := append_of_mem hrow
  rw [hrows] at h
  obtain ⟨before, p, after, hbefore, heq, hfree, k, hk, hearlier⟩ := assign_split h
  have hgiven : givenPath paths row = p := by
    rw [givenPath, Rows.lookup_of_mem hfst (heq ▸ mem_append_right _ mem_cons_self)]
    rfl
  have hoccupied := mem_assign hnodup hrows hbefore
  rw [hgiven]
  exact ⟨fun hocc => hfree ((hoccupied p).2 hocc), k, hk, fun j hj => (hoccupied _).1 (hearlier j hj)⟩

theorem givenPath_eq (hnodup : (nodes.map NoteRow.id).Nodup)
    (h : assign cfg prior (byId cfg nodes) = .ok paths) (hrow : row ∈ byId cfg nodes)
    (hfree : ¬ Occupied cfg prior nodes row.id (notePath cfg prior row)) :
    givenPath paths row = notePath cfg prior row := by
  obtain ⟨-, k, hk, hearlier⟩ := givenPath_spec hnodup h hrow
  cases k with
  | zero => exact hk
  | succ k => exact absurd (hearlier 0 (Nat.succ_pos k)) hfree

theorem map_givenPath (hnodup : (nodes.map NoteRow.id).Nodup) (h : assign cfg prior (byId cfg nodes) = .ok paths) :
    (byId cfg nodes).map (givenPath paths) = paths.map Prod.snd := by
  calc (byId cfg nodes).map (givenPath paths)
      = ((byId cfg nodes).map NoteRow.id).map fun id => (paths.lookup id).getD [] := by
        rw [map_map]
        rfl
    _ = paths.map fun q => (paths.lookup q.1).getD [] := by
        rw [← assign_ids h, map_map]
        rfl
    _ = paths.map Prod.snd := by
        refine map_congr_left fun q hq => ?_
        rw [Rows.lookup_of_mem (assign_fst_nodup hnodup h) hq]
        rfl

theorem nodup_givenPath (hnodup : (nodes.map NoteRow.id).Nodup) (h : assign cfg prior (byId cfg nodes) = .ok paths) :
    ((byId cfg nodes).map (givenPath paths)).Nodup := by
  rw [map_givenPath hnodup h]
  exact assign_nodup h

theorem notedRealms_givenPath (hnodup : (nodes.map NoteRow.id).Nodup)
    (h : assign cfg prior (byId cfg nodes) = .ok paths) :
    notedRealms (byId cfg nodes) (givenPath paths) = notedRealms (byId cfg nodes) (notePath cfg prior) := by
  unfold notedRealms
  refine congrArg (fun rows => ((List.map NoteRow.realm rows).dedup).insertionSort (· ≤ ·)) ?_
  refine filter_congr fun row hrow => ?_
  obtain ⟨-, k, hk, -⟩ := givenPath_spec hnodup h hrow
  rw [decide_eq_decide]
  refine and_congr_right fun _ => ?_
  rw [hk, isPrefixOf_iff_prefix, isPrefixOf_iff_prefix]
  exact isPrefix_variants 1 _ k

theorem pages_paths (hnodup : (nodes.map NoteRow.id).Nodup) (h : assign cfg prior (byId cfg nodes) = .ok paths) :
    (pages texts cfg (byId cfg nodes) paths).map VaultFile.path ++ [manifestPath] = generatedPaths cfg prior nodes := by
  unfold pages realmIndexes generatedPaths
  rw [map_append]
  congr 2
  cases hlayout : cfg.layout with
  | flat => rfl
  | byRealm =>
    dsimp only
    rw [map_map]
    exact congrArg (List.map realmIndexPath) (notedRealms_givenPath hnodup h)

theorem files_paths (hnodup : (nodes.map NoteRow.id).Nodup) (h : assign cfg prior (byId cfg nodes) = .ok paths) :
    ((planFiles texts cfg (byId cfg nodes) edges paths).files.map VaultFile.path).Perm
      ((byId cfg nodes).map (givenPath paths) ++ generatedPaths cfg prior nodes) := by
  unfold planFiles
  refine ((perm_insertionSort _ _).map _).trans ?_
  rw [← pages_paths hnodup h, map_append, map_append, map_map, append_assoc]
  exact List.Perm.refl _

theorem entries_of_row (hnodup : (nodes.map NoteRow.id).Nodup) (hrow : row ∈ byId cfg nodes) :
    (planFiles texts cfg (byId cfg nodes) edges paths).manifest.entries.filter (·.memoryId = some row.id) =
      [⟨givenPath paths row, some row.id⟩] := by
  have hnotes : (((byId cfg nodes).map fun r => (⟨givenPath paths r, some r.id⟩ : ManifestEntry)).filter
      (·.memoryId = some row.id)) = [⟨givenPath paths row, some row.id⟩] := by
    have hcongr : ((byId cfg nodes).filter fun r => (some r.id = some row.id : Bool)) = [row] := by
      simp only [Option.some.injEq]
      exact Rows.filter_key_eq (nodup_ids hnodup) hrow
    rw [filter_map]
    exact congrArg (List.map _) hcongr
  have hpages : (((pages texts cfg (byId cfg nodes) paths).map fun f => (⟨f.path, none⟩ : ManifestEntry)).filter
      (·.memoryId = some row.id)) = [] := by
    refine filter_eq_nil_iff.2 fun e he => ?_
    obtain ⟨f, -, rfl⟩ := mem_map.1 he
    simp
  unfold planFiles
  dsimp only
  rw [filter_append, filter_append, hpages, append_nil]
  refine (congrArg (· ++ _) hnotes).trans ?_
  rfl

theorem noteFile_mem (hrow : row ∈ byId cfg nodes) :
    noteFile texts cfg (relatedLinks (byId cfg nodes) paths edges) paths row ∈
      (planFiles texts cfg (byId cfg nodes) edges paths).files := by
  unfold planFiles
  rw [mem_insertionSort, append_assoc]
  exact mem_append_left _ (mem_map_of_mem hrow)

/-! ### When the paths are given out -/

theorem hasMd_mintPath (row : NoteRow) : HasMd (mintPath cfg row) := by
  unfold mintPath
  split
  · exact ⟨_, [], (append_nil _).symm⟩
  · dsimp only
    split
    · exact ⟨_, [], (append_nil _).symm⟩
    · split <;> exact ⟨_, [], (append_nil _).symm⟩

theorem exists_assign (hnodup : (nodes.map NoteRow.id).Nodup) (hclear : Clear cfg prior nodes) :
    ∃ paths, assign cfg prior (byId cfg nodes) = .ok paths := by
  have hprefix (pre post : List NoteRow) (hrows : byId cfg nodes = pre ++ post) :
      ∃ paths, assign cfg prior pre = .ok paths := by
    induction pre using List.reverseRecOn generalizing post with
    | nil => exact ⟨[], rfl⟩
    | append_singleton pre row ih =>
      have hrows' : byId cfg nodes = pre ++ row :: post := by rw [hrows, append_assoc]; rfl
      obtain ⟨before, hbefore⟩ := ih (row :: post) hrows'
      have hrow : row ∈ byId cfg nodes := hrows' ▸ mem_append_right _ mem_cons_self
      obtain ⟨hmem, hincluded⟩ := (mem_byId hnodup).1 hrow
      have hfound : avoid (before.map Prod.snd) (before.length + 1) 1 (notePath cfg prior row) ≠ none := by
        cases hprior : prior.pathOf row.id with
        | some p =>
          have hpath : notePath cfg prior row = p := by rw [notePath, hprior]
          have hfree : p ∉ before.map Prod.snd := fun hp =>
            hclear.kept row hmem hincluded p hprior ((mem_assign hnodup hrows' hbefore p).1 hp)
          rw [hpath, avoid, if_neg hfree]
          exact Option.some_ne_none _
        | none =>
          have hpath : notePath cfg prior row = mintPath cfg row := by rw [notePath, hprior]
          have hmd : HasMd (mintPath cfg row) := hasMd_mintPath row
          have hsome : avoid (before.map Prod.snd) ((before.map Prod.snd).length + 1) 1 (mintPath cfg row) ≠ none :=
            avoid_ne_none hmd 1
          rw [length_map] at hsome
          rwa [hpath]
      obtain ⟨p, hp⟩ := Option.ne_none_iff_exists'.1 hfound
      refine ⟨before ++ [(row.id, p)], ?_⟩
      rw [assign_snoc, hbefore, place]
      simp only [hclear.valid row hmem hincluded, hp, Bool.not_true, Bool.false_eq_true, if_false]
  exact hprefix (byId cfg nodes) [] (append_nil _).symm

theorem valid_of_assign {rows : List NoteRow} (h : assign cfg prior rows = .ok paths) :
    ∀ row ∈ rows, validPath (notePath cfg prior row) = true := by
  induction rows using List.reverseRecOn generalizing paths with
  | nil => simp
  | append_singleton rows row ih =>
    rw [assign_snoc] at h
    obtain ⟨before, p, hbefore, -, -, -⟩ := place_eq_ok h
    intro r hr
    rcases mem_append.1 hr with hr | hr
    · exact ih hbefore r hr
    · obtain rfl := mem_singleton.1 hr
      rw [hbefore] at h
      by_contra hinvalid
      rw [Bool.not_eq_true] at hinvalid
      simp [place, hinvalid] at h

theorem mem_of_occupied (hnodup : (nodes.map NoteRow.id).Nodup)
    (h : assign cfg prior (byId cfg nodes) = .ok paths) (hrow : row ∈ byId cfg nodes) {p : Text}
    (hp : Occupied cfg prior nodes row.id p) : p ∈ (byId cfg nodes).map (givenPath paths) := by
  rw [map_givenPath hnodup h]
  obtain ⟨pre, post, hrows⟩ := append_of_mem hrow
  rw [hrows] at h
  obtain ⟨before, q, after, hbefore, rfl, -, -⟩ := assign_split h
  rw [map_append]
  exact mem_append_left _ ((mem_assign hnodup hrows hbefore p).2 hp)

/-! ### Distinct paths -/

theorem disjoint_iff (hnodup : (nodes.map NoteRow.id).Nodup) (h : assign cfg prior (byId cfg nodes) = .ok paths) :
    ((byId cfg nodes).map (givenPath paths)).Disjoint (generatedPaths cfg prior nodes) ↔
      ∀ row ∈ nodes, included cfg row = true → notePath cfg prior row ∉ generatedPaths cfg prior nodes := by
  constructor
  · intro hdisjoint row hrow hincluded hgenerated
    have hmem : row ∈ byId cfg nodes := (mem_byId hnodup).2 ⟨hrow, hincluded⟩
    by_cases hocc : Occupied cfg prior nodes row.id (notePath cfg prior row)
    · exact hdisjoint (mem_of_occupied hnodup h hmem hocc) hgenerated
    · have hgiven := givenPath_eq hnodup h hmem hocc
      exact hdisjoint (mem_map.2 ⟨row, hmem, hgiven⟩) hgenerated
  · intro hapart p hp hgenerated
    obtain ⟨row, hrow, rfl⟩ := mem_map.1 hp
    obtain ⟨hmem, hincluded⟩ := (mem_byId hnodup).1 hrow
    obtain ⟨hfree, k, hk, hearlier⟩ := givenPath_spec hnodup h hrow
    cases k with
    | zero =>
      have hgiven : givenPath paths row = notePath cfg prior row := hk
      exact hapart row hmem hincluded (hgiven ▸ hgenerated)
    | succ k =>
      -- the number changed nothing, so the path was given out before
      have hsame : variants 1 (notePath cfg prior row) k = givenPath paths row :=
        eq_of_plain (plain_generated hgenerated) (by rw [hk, variants_succ])
      exact hfree (hsame ▸ hearlier k (Nat.lt_succ_self k))

theorem mem_notedRealms (hnodup : (nodes.map NoteRow.id).Nodup) {realm : Text} :
    realm ∈ notedRealms (byId cfg nodes) (notePath cfg prior) ↔ ∃ row ∈ nodes, Noted cfg prior row ∧ row.realm = realm := by
  unfold notedRealms Noted
  simp only [mem_insertionSort, mem_dedup, mem_map, mem_filter, mem_byId hnodup,
    decide_eq_true_eq, isPrefixOf_iff_prefix]
  constructor
  · rintro ⟨row, ⟨⟨hrow, hincluded⟩, htype, hprefix⟩, rfl⟩
    exact ⟨row, hrow, ⟨hincluded, htype, hprefix⟩, rfl⟩
  · rintro ⟨row, hrow, ⟨hincluded, htype, hprefix⟩, rfl⟩
    exact ⟨row, ⟨⟨hrow, hincluded⟩, htype, hprefix⟩, rfl⟩

theorem realmIndexPath_inj {a b : Text} (h : realmIndexPath a = realmIndexPath b) :
    sanitizeRealmSegment a = sanitizeRealmSegment b := by
  unfold realmIndexPath at h
  exact append_cancel_left (append_cancel_right h)

theorem nodup_generatedPaths (hnodup : (nodes.map NoteRow.id).Nodup) : (generatedPaths cfg prior nodes).Nodup ↔
      (cfg.layout = .byRealm → ∀ a ∈ nodes, ∀ b ∈ nodes, Noted cfg prior a → Noted cfg prior b →
        sanitizeRealmSegment a.realm = sanitizeRealmSegment b.realm → a.realm = b.realm) := by
  unfold generatedPaths
  cases cfg.layout with
  | flat =>
    have hfixed : (["README.md".toList, "CONTRIBUTING.md".toList, "index.md".toList] ++ [] ++ [manifestPath]).Nodup := by
      decide
    exact iff_of_true hfixed fun h => by cases h
  | byRealm =>
    dsimp only
    have hrealms : (notedRealms (byId cfg nodes) (notePath cfg prior)).Nodup :=
      (perm_insertionSort _ _).nodup_iff.2 (nodup_dedup _)
    have hindexes : ((notedRealms (byId cfg nodes) (notePath cfg prior)).map realmIndexPath).Nodup ↔
        ∀ a ∈ nodes, ∀ b ∈ nodes, Noted cfg prior a → Noted cfg prior b →
          sanitizeRealmSegment a.realm = sanitizeRealmSegment b.realm → a.realm = b.realm := by
      rw [nodup_map_iff_inj_on hrealms]
      constructor
      · intro hinj a ha b hb hna hnb heq
        refine hinj _ ((mem_notedRealms hnodup).2 ⟨a, ha, hna, rfl⟩) _ ((mem_notedRealms hnodup).2 ⟨b, hb, hnb, rfl⟩) ?_
        exact congrArg (fun s => "notes/".toList ++ s ++ "/index.md".toList) heq
      · intro hdifferent x hx y hy heq
        obtain ⟨a, ha, hna, rfl⟩ := (mem_notedRealms hnodup).1 hx
        obtain ⟨b, hb, hnb, rfl⟩ := (mem_notedRealms hnodup).1 hy
        exact hdifferent a ha b hb hna hnb (realmIndexPath_inj heq)
    have hapart : ∀ p ∈ (notedRealms (byId cfg nodes) (notePath cfg prior)).map realmIndexPath, p.head? = some 'n' := by
      intro p hp
      obtain ⟨realm, -, rfl⟩ := mem_map.1 hp
      rfl
    have hfixed : ∀ p ∈ ["README.md".toList, "CONTRIBUTING.md".toList, "index.md".toList, manifestPath],
        p.head? ≠ some 'n' := by decide
    rw [← hindexes]
    constructor
    · intro hall _
      exact (nodup_append.1 (nodup_append.1 hall).1).2.1
    · intro hmap
      refine nodup_append.2 ⟨nodup_append.2 ⟨by decide, hmap rfl, ?_⟩, nodup_singleton _, ?_⟩
      · rintro p hp q hq rfl
        exact hfixed p (by simp only [mem_cons] at hp ⊢; tauto) (hapart p hq)
      · rintro p hp q hq rfl
        obtain rfl := mem_singleton.1 hq
        rcases mem_append.1 hp with hp | hp
        · revert hp
          decide
        · exact hfixed _ (by simp) (hapart _ hp)

theorem distinct_iff (hnodup : (nodes.map NoteRow.id).Nodup) (h : assign cfg prior (byId cfg nodes) = .ok paths) :
    ((planFiles texts cfg (byId cfg nodes) edges paths).files.map VaultFile.path).Nodup ↔
      (∀ row ∈ nodes, included cfg row = true → notePath cfg prior row ∉ generatedPaths cfg prior nodes) ∧
      (cfg.layout = .byRealm → ∀ a ∈ nodes, ∀ b ∈ nodes, Noted cfg prior a → Noted cfg prior b →
        sanitizeRealmSegment a.realm = sanitizeRealmSegment b.realm → a.realm = b.realm) := by
  rw [(files_paths hnodup h).nodup_iff, nodup_append', ← disjoint_iff hnodup h, ← nodup_generatedPaths hnodup]
  exact ⟨fun ⟨_, hgen, hdisjoint⟩ => ⟨hdisjoint, hgen⟩, fun ⟨hdisjoint, hgen⟩ =>
    ⟨nodup_givenPath hnodup h, hgen, hdisjoint⟩⟩

end Plan

/-- **A plan is as it is to be**, and the same for every order of the rows and the edges, exactly if the rows and the
manifest are clear. -/
theorem proper_iff_clear (texts : Texts) (cfg : BrainConfig) (prior : Manifest) (nodes : List NoteRow)
    (edges : List EdgeRow) (hnodup : (nodes.map NoteRow.id).Nodup) :
    ((∀ nodes' edges', nodes'.Perm nodes → edges'.Perm edges →
        planVault texts cfg prior nodes' edges' = planVault texts cfg prior nodes edges) ∧
      ∃ plan, planVault texts cfg prior nodes edges = .ok plan ∧ Proper texts cfg prior nodes plan) ↔
      Clear cfg prior nodes := by
  constructor
  · rintro ⟨-, plan, hplan, hproper⟩
    unfold planVault at hplan
    dsimp only at hplan
    split at hplan
    · cases hplan
    · cases hplan
    · rename_i paths hassign
      cases hplan
      obtain ⟨hapart, hrealms⟩ := (distinct_iff hnodup hassign).1 hproper.distinct
      refine ⟨fun row hrow hincluded => ?_, fun row hrow hincluded p hprior => ?_, hapart, hrealms⟩
      · exact valid_of_assign hassign row ((mem_byId hnodup).2 ⟨hrow, hincluded⟩)
      · have hmem : row ∈ byId cfg nodes := (mem_byId hnodup).2 ⟨hrow, hincluded⟩
        have hentry : (⟨p, some row.id⟩ : ManifestEntry) ∈ (planFiles texts cfg (byId cfg nodes) edges
            paths).manifest.entries.filter (·.memoryId = some row.id) :=
          mem_filter.2 ⟨hproper.stable row hrow hincluded p hprior, by simp⟩
        rw [entries_of_row hnodup hmem] at hentry
        cases mem_singleton.1 hentry
        exact (givenPath_spec hnodup hassign hmem).1
  · intro hclear
    refine ⟨fun nodes' edges' hnodes hedges => planVault_perm texts cfg prior hnodup hnodes hedges, ?_⟩
    obtain ⟨paths, hassign⟩ := exists_assign hnodup hclear
    refine ⟨planFiles texts cfg (byId cfg nodes) edges paths, by rw [planVault]; simp only [hassign], ?_⟩
    refine ⟨(distinct_iff hnodup hassign).2 ⟨hclear.apart, hclear.realms⟩, fun row hrow hincluded => ?_,
      fun row hrow hincluded p hprior => ?_⟩
    · have hmem : row ∈ byId cfg nodes := (mem_byId hnodup).2 ⟨hrow, hincluded⟩
      exact ⟨_, _, entries_of_row hnodup hmem, noteFile_mem hmem⟩
    · have hmem : row ∈ byId cfg nodes := (mem_byId hnodup).2 ⟨hrow, hincluded⟩
      have hpath : notePath cfg prior row = p := by rw [notePath, hprior]
      have hgiven : givenPath paths row = p := by
        rw [givenPath_eq hnodup hassign hmem (hpath ▸ hclear.kept row hrow hincluded p hprior), hpath]
      have hentry : (⟨givenPath paths row, some row.id⟩ : ManifestEntry) ∈ (planFiles texts cfg (byId cfg nodes) edges
          paths).manifest.entries.filter (·.memoryId = some row.id) := by
        rw [entries_of_row hnodup hmem]
        exact mem_singleton_self _
      rw [hgiven] at hentry
      exact mem_of_mem_filter hentry

/-! #### Two realms -/

def fact (id realm title : Text) : NoteRow where
  id := id
  realm := realm
  memoryType := "fact".toList
  title := title
  content := []
  tags := []
  importance := 1
  status := "active".toList
  createdAt := []
  updatedAt := []
  validAt := none
  invalidAt := none
  topicKey := none

def allRealms : BrainConfig where
  name := "team".toList
  realms := .all
  layout := .byRealm
  filters := ⟨["active".toList], none, none, false, true⟩

def blank : Texts := ⟨fun _ _ _ => [], fun _ => [], fun _ => [], fun _ _ _ => [], fun _ _ _ => [], fun _ => []⟩

/-- One fact, of one realm. -/
theorem proper_iff_clear_one :
    ((∀ nodes' edges', nodes'.Perm [fact "a1".toList "a b".toList "x".toList] → edges'.Perm [] →
        planVault blank allRealms ⟨1, []⟩ nodes' edges' =
          planVault blank allRealms ⟨1, []⟩ [fact "a1".toList "a b".toList "x".toList] []) ∧
      ∃ plan, planVault blank allRealms ⟨1, []⟩ [fact "a1".toList "a b".toList "x".toList] [] = .ok plan ∧
        Proper blank allRealms ⟨1, []⟩ [fact "a1".toList "a b".toList "x".toList] plan) ↔
      Clear allRealms ⟨1, []⟩ [fact "a1".toList "a b".toList "x".toList] :=
  proper_iff_clear blank allRealms ⟨1, []⟩ _ [] (nodup_singleton _)

/-- **Realms `a b` and `a-b`** have one index: the plan has two files at its path. -/
theorem realms_collide : ∃ plan,
    planVault blank allRealms ⟨1, []⟩ [fact "a1".toList "a b".toList "x".toList, fact "b1".toList "a-b".toList "y".toList]
      [] = .ok plan ∧ ¬ (plan.files.map VaultFile.path).Nodup :=
  ⟨_, rfl, by decide⟩

end Brain
