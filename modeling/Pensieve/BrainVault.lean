/-
**The vault of a brain.**

A brain is a git repository that shows the memories of some realms as the notes of a vault.
`plan_vault` makes the files of the vault from the rows of the memories and their edges: a note for
each memory that passes the filters, pages that link to the notes, and a manifest of the paths it
uses.
-/

import Mathlib.Tactic
import Mathlib.Data.Char
import Pensieve.Rows

namespace Brain

open List

abbrev Text := List Char

abbrev Bytes := List UInt8

/-! ### Rows, files and manifests -/

structure NoteRow where
  id : Text
  realm : Text
  memoryType : Text
  title : Text
  content : Text
  tags : Text
  importance : ℚ
  status : Text
  createdAt : Text
  updatedAt : Text
  validAt : Option Text
  invalidAt : Option Text
  topicKey : Option Text
  deriving DecidableEq

structure EdgeRow where
  src : Text
  dst : Text
  edgeType : Text
  deriving DecidableEq

structure VaultFile where
  path : Text
  bytes : Bytes
  deriving DecidableEq

structure ManifestEntry where
  path : Text
  memoryId : Option Text
  deriving DecidableEq

structure Manifest where
  version : ℕ
  entries : List ManifestEntry
  deriving DecidableEq

def Manifest.currentVersion : ℕ := 1

/-- `paths_by_memory_id` of an id: the last entry counts. -/
def Manifest.pathOf (m : Manifest) (id : Text) : Option Text :=
  (m.entries.filterMap fun e => e.memoryId.map fun memory => (memory, e.path)).reverse.lookup id

/-- `memory_ids_by_path` of a path: the last entry counts. -/
def Manifest.memoryAt (m : Manifest) (path : Text) : Option Text :=
  (m.entries.filterMap fun e => e.memoryId.map fun memory => (e.path, memory)).reverse.lookup path

def Manifest.ownedPaths (m : Manifest) : List Text := m.entries.map ManifestEntry.path

inductive VaultLayout where
  | flat
  | byRealm
  deriving DecidableEq

inductive RealmSelector where
  | all
  | realms (names : List Text)
  deriving DecidableEq

structure BrainFilters where
  statuses : List Text
  memoryTypes : Option (List Text)
  minImportance : Option ℚ
  includeInvalidated : Bool
  redactPrivateSpans : Bool

structure BrainConfig where
  name : Text
  realms : RealmSelector
  layout : VaultLayout
  filters : BrainFilters

def manifestPath : Text := ".pensieve/manifest.json".toList

/-! ### Filters and paths -/

def included (cfg : BrainConfig) (row : NoteRow) : Bool :=
  let f := cfg.filters
  f.statuses.contains row.status && f.memoryTypes.all (·.contains row.memoryType) &&
    f.minImportance.all (· ≤ row.importance) && (f.includeInvalidated || row.invalidAt.isNone)

def typeFolder (memoryType : Text) : Text :=
  if memoryType = "decision".toList then "decisions".toList
  else if memoryType = "preference".toList then "preferences".toList
  else if memoryType = "learning".toList then "learnings".toList
  else if memoryType = "summary".toList then "summaries".toList
  else if memoryType = "procedure".toList then "procedures".toList
  else if memoryType = "entity".toList then "entities".toList
  else "facts".toList

def isAsciiAlphanumeric (c : Char) : Bool := ('a' ≤ c ∧ c ≤ 'z') ∨ ('A' ≤ c ∧ c ≤ 'Z') ∨ ('0' ≤ c ∧ c ≤ '9')

def stripPrefix (pre s : Text) : Option Text := if pre.isPrefixOf s then some (s.drop pre.length) else none

/-- `trim_end_matches` of a character. -/
def trimEnd (c : Char) (s : Text) : Text := (s.reverse.dropWhile (· = c)).reverse

/-- The words of a title, with a dash for what is between them; `prevDash` says that a dash is not needed. -/
def slugLoop : Bool → Text → Text
  | _, [] => []
  | prevDash, c :: cs =>
    if isAsciiAlphanumeric c then c.toLower :: slugLoop false cs
    else if !prevDash then '-' :: slugLoop true cs
    else slugLoop prevDash cs

def titleSlug (title : Text) : Text :=
  let slug := trimEnd '-' (slugLoop true title)
  if slug.isEmpty then "note".toList else slug

def windowsReserved : List Text :=
  ["con", "prn", "aux", "nul", "com1", "com2", "com3", "com4", "com5", "com6", "com7", "com8", "com9", "lpt1", "lpt2",
    "lpt3", "lpt4", "lpt5", "lpt6", "lpt7", "lpt8", "lpt9"].map String.toList

/-- `<title-slug>-<uuid-first-8>` -/
def noteStem (title memoryId : Text) : Text :=
  let slug := trimEnd '-' ((titleSlug title).take 80)
  let slug := if slug ∈ windowsReserved then "note".toList else slug
  let id8 := (memoryId.filter (· ≠ '-')).take 8
  let id8 := if id8.isEmpty then "00000000".toList else id8
  slug ++ '-' :: id8

def splitOnce (s : Text) : Option (Text × Text) :=
  if ':' ∈ s then some (s.takeWhile (· ≠ ':'), (s.dropWhile (· ≠ ':')).drop 1) else none

def wikiSlug (cfg : BrainConfig) (row : NoteRow) : Option Text := do
  let tk ← row.topicKey
  let rest ← stripPrefix "wiki:".toList tk
  let (brain, slug) ← splitOnce rest
  if brain ≠ cfg.name ∨ slug.isEmpty then none else some (titleSlug slug)

/-- `trim_matches(['.', '-'])` -/
def trimDots (s : Text) : Text :=
  let dots : Char → Bool := fun c => c = '.' || c = '-'
  ((s.dropWhile dots).reverse.dropWhile dots).reverse

def sanitizeRealmSegment (realm : Text) : Text :=
  let cleaned := realm.map fun c => if isAsciiAlphanumeric c ∨ c ∈ "._-".toList then c else '-'
  let cleaned := trimDots cleaned
  if cleaned.isEmpty then "default".toList else cleaned

def dotMd : Text := ".md".toList

def mintPath (cfg : BrainConfig) (row : NoteRow) : Text :=
  match wikiSlug cfg row with
  | some slug => "wiki/".toList ++ slug ++ dotMd
  | none =>
    let stem := noteStem row.title row.id
    if row.memoryType = "entity".toList then "entities/".toList ++ stem ++ dotMd
    else
      let folder := typeFolder row.memoryType
      match cfg.layout with
      | .flat => "notes/".toList ++ folder ++ '/' :: stem ++ dotMd
      | .byRealm => "notes/".toList ++ sanitizeRealmSegment row.realm ++ '/' :: folder ++ '/' :: stem ++ dotMd

def notePath (cfg : BrainConfig) (prior : Manifest) (row : NoteRow) : Text :=
  match prior.pathOf row.id with
  | some p => p
  | none => mintPath cfg row

/-- `validate_path` -/
def validPath (path : Text) : Bool :=
  !(path.isEmpty || path.head? = some '/' ||
    (path.splitOn '/').any fun seg => seg.isEmpty || seg = ".".toList || seg = "..".toList)

/-! ### Rows by their ids -/

/-- `entry(id).or_insert(row)` of a map by ids. -/
def insertById (row : NoteRow) : List NoteRow → List NoteRow
  | [] => [row]
  | r :: rows =>
    if row.id < r.id then row :: r :: rows
    else if row.id = r.id then r :: rows
    else r :: insertById row rows

def byId (cfg : BrainConfig) (nodes : List NoteRow) : List NoteRow :=
  (nodes.filter (included cfg)).foldl (fun rows n => insertById n rows) []

variable {row : NoteRow} {rows : List NoteRow}

theorem mem_insertById {r : NoteRow} (h : row.id ∉ rows.map NoteRow.id) :
    r ∈ insertById row rows ↔ r = row ∨ r ∈ rows := by
  induction rows with
  | nil => simp [insertById]
  | cons q rows ih =>
    rw [map_cons, mem_cons, not_or] at h
    unfold insertById
    split
    · exact mem_cons
    · rw [if_neg h.1, mem_cons, ih h.2, mem_cons]
      exact or_left_comm

theorem mem_of_mem_insertById {r : NoteRow} (h : r ∈ insertById row rows) : r = row ∨ r ∈ rows := by
  induction rows with
  | nil => exact .inl (mem_singleton.1 h)
  | cons q rows ih =>
    unfold insertById at h
    split at h
    · exact mem_cons.1 h
    · split at h
      · exact .inr h
      · rcases mem_cons.1 h with rfl | h
        · exact .inr mem_cons_self
        · exact (ih h).imp_right (mem_cons_of_mem q)

theorem ids_insertById {id : Text}
    (h : id ∈ (insertById row rows).map NoteRow.id) : id = row.id ∨ id ∈ rows.map NoteRow.id := by
  induction rows with
  | nil => simpa [insertById] using h
  | cons q rows ih =>
    unfold insertById at h
    split at h
    · simpa using h
    · split at h
      · exact .inr h
      · rw [map_cons, mem_cons] at h ⊢
        rcases h with h | h
        · exact .inr (.inl h)
        · exact (ih h).imp_right .inr

theorem sorted_insertById (h : rows.Pairwise (·.id < ·.id)) : (insertById row rows).Pairwise (·.id < ·.id) := by
  induction rows with
  | nil => simp [insertById]
  | cons q rows ih =>
    obtain ⟨hq, hrows⟩ := pairwise_cons.1 h
    unfold insertById
    split
    · rename_i hlt
      refine pairwise_cons.2 ⟨fun r hr => ?_, h⟩
      rcases mem_cons.1 hr with rfl | hr
      · exact hlt
      · exact hlt.trans (hq r hr)
    · rename_i hge
      split
      · exact h
      · rename_i hne
        refine pairwise_cons.2 ⟨fun r hr => ?_, ih hrows⟩
        rcases ids_insertById (mem_map_of_mem hr) with heq | hmem
        · rw [heq]
          exact lt_of_le_of_ne (not_lt.1 hge) (Ne.symm hne)
        · obtain ⟨r', hr', heq⟩ := mem_map.1 hmem
          exact heq ▸ hq r' hr'

theorem byId_foldl {nodes : List NoteRow} (hrows : rows.Pairwise (·.id < ·.id))
    (hnodup : (nodes.map NoteRow.id).Nodup) (hapart : ∀ n ∈ nodes, n.id ∉ rows.map NoteRow.id) :
    (nodes.foldl (fun rows n => insertById n rows) rows).Pairwise (·.id < ·.id) ∧
      ∀ r, r ∈ nodes.foldl (fun rows n => insertById n rows) rows ↔ r ∈ nodes ∨ r ∈ rows := by
  induction nodes generalizing rows with
  | nil => exact ⟨hrows, fun r => by simp⟩
  | cons n nodes ih =>
    rw [map_cons, nodup_cons] at hnodup
    have hn := hapart n mem_cons_self
    have hinsert : (insertById n rows).Pairwise (·.id < ·.id) := sorted_insertById hrows
    have hstep := ih hinsert hnodup.2 fun m hm hmem => by
      rcases ids_insertById hmem with heq | hmem
      · exact hnodup.1 (heq ▸ mem_map_of_mem hm)
      · exact hapart m (mem_cons_of_mem _ hm) hmem
    refine ⟨hstep.1, fun r => ?_⟩
    rw [foldl_cons, hstep.2, mem_insertById hn, mem_cons]
    exact or_left_comm.trans or_assoc.symm

theorem mem_of_mem_byId {cfg : BrainConfig} {nodes : List NoteRow} (h : row ∈ byId cfg nodes) : row ∈ nodes := by
  have hfold : ∀ (more rows : List NoteRow), row ∈ more.foldl (fun rows n => insertById n rows) rows →
      row ∈ more ∨ row ∈ rows := by
    intro more
    induction more with
    | nil => exact fun rows hrow => .inr hrow
    | cons n more ih =>
      intro rows hrow
      rcases ih _ hrow with hmem | hmem
      · exact .inl (mem_cons_of_mem n hmem)
      · rcases mem_of_mem_insertById hmem with rfl | hmem
        · exact .inl mem_cons_self
        · exact .inr hmem
  rcases hfold _ _ h with hmem | hmem
  · exact mem_of_mem_filter hmem
  · cases hmem

section ById

variable {cfg : BrainConfig} {nodes : List NoteRow} (hnodup : (nodes.map NoteRow.id).Nodup)
include hnodup

theorem sorted_byId : (byId cfg nodes).Pairwise (·.id < ·.id) :=
  (byId_foldl .nil (hnodup.sublist (filter_sublist.map _)) (by simp)).1

theorem nodup_byId : (byId cfg nodes).Nodup := by
  have h : (byId cfg nodes).Pairwise (·.id < ·.id) := sorted_byId hnodup
  exact h.imp fun {a b} hlt (heq : a = b) => lt_irrefl b.id (heq ▸ hlt)

theorem mem_byId {row : NoteRow} : row ∈ byId cfg nodes ↔ row ∈ nodes ∧ included cfg row = true := by
  have hfilter : ((nodes.filter (included cfg)).map NoteRow.id).Nodup := hnodup.sublist (filter_sublist.map _)
  rw [byId, (byId_foldl .nil hfilter (by simp)).2 row, mem_filter]
  simp

theorem byId_perm {nodes' : List NoteRow} (h : nodes'.Perm nodes) : byId cfg nodes' = byId cfg nodes := by
  have hnodup' : (nodes'.map NoteRow.id).Nodup := (h.map _).nodup_iff.2 hnodup
  refine List.Perm.eq_of_pairwise (fun a b _ _ hab hba => absurd hab (lt_asymm hba)) (sorted_byId hnodup')
    (sorted_byId hnodup) ?_
  refine (perm_ext_iff_of_nodup (nodup_byId hnodup') (nodup_byId hnodup)).2 fun r => ?_
  rw [mem_byId hnodup', mem_byId hnodup, h.mem_iff]

end ById

/-! ### Paths of the notes -/

/-- `replace(".md", by)` -/
def replaceMd (by' : Text) : Text → Text
  | [] => []
  | c :: cs =>
    match c, cs with
    | '.', 'm' :: 'd' :: rest => by' ++ replaceMd by' rest
    | c, cs => c :: replaceMd by' cs

/-- `-{n}.md` -/
def numbered (n : ℕ) : Text := '-' :: Nat.toDigits 10 n ++ dotMd

/-- The paths that a path is tried as, from the number `n` on. -/
def variants (n : ℕ) : Text → ℕ → Text
  | path, 0 => path
  | path, k + 1 => variants (n + 1) (replaceMd (numbered (n + 1)) path) k

/-- The loop that looks for a path that is not taken; it is left when `fuel` is enough. -/
def avoid (taken : List Text) : ℕ → ℕ → Text → Option Text
  | 0, _, _ => none
  | fuel + 1, n, path =>
    if path ∈ taken then avoid taken fuel (n + 1) (replaceMd (numbered (n + 1)) path) else some path

theorem avoid_eq_some {taken : List Text} {fuel n : ℕ} {path p : Text} (h : avoid taken fuel n path = some p) :
    p ∉ taken ∧ ∃ k, p = variants n path k ∧ ∀ j < k, variants n path j ∈ taken := by
  induction fuel generalizing n path with
  | zero => cases h
  | succ fuel ih =>
    unfold avoid at h
    split at h
    · rename_i hmem
      obtain ⟨hp, k, hk, hbefore⟩ := ih h
      refine ⟨hp, k + 1, hk, fun j hj => ?_⟩
      cases j with
      | zero => exact hmem
      | succ j => exact hbefore j (by omega)
    · rename_i hmem
      cases h
      exact ⟨hmem, 0, rfl, by simp⟩

theorem avoid_eq_none {taken : List Text} {fuel n : ℕ} {path : Text} (h : avoid taken fuel n path = none) :
    ∀ k < fuel, variants n path k ∈ taken := by
  induction fuel generalizing n path with
  | zero => simp
  | succ fuel ih =>
    unfold avoid at h
    split at h
    · rename_i hmem
      intro k hk
      cases k with
      | zero => exact hmem
      | succ k => exact ih h k (by omega)
    · cases h

/-- What making the paths comes to: the loop for a path is never left, a path is refused, or there is a result. -/
inductive Planned (α : Type) where
  | runsOn
  | invalidPath (path : Text)
  | ok (a : α)

def place (cfg : BrainConfig) (prior : Manifest) (done : Planned (List (Text × Text))) (row : NoteRow) :
    Planned (List (Text × Text)) :=
  match done with
  | .ok paths =>
    let path := notePath cfg prior row
    if !validPath path then .invalidPath path
    else
      match avoid (paths.map Prod.snd) (paths.length + 1) 1 path with
      | none => .runsOn
      | some p => .ok (paths ++ [(row.id, p)])
  | other => other

/-- **The paths of the notes**, in the order of their ids. -/
def assign (cfg : BrainConfig) (prior : Manifest) (rows : List NoteRow) : Planned (List (Text × Text)) :=
  rows.foldl (place cfg prior) (.ok [])

/-! ### The files -/

structure RelatedLink where
  target : Text
  title : Text
  edgeType : Text
  deriving DecidableEq

structure Texts where
  note : NoteRow → List RelatedLink → Bool → Bytes
  readme : BrainConfig → Bytes
  contributing : BrainConfig → Bytes
  index : BrainConfig → List NoteRow → List (Text × Text) → Bytes
  realmIndex : Text → List NoteRow → List (Text × Text) → Bytes
  toBytes : Manifest → Bytes

/-- `trim_end_matches(".md")` -/
def trimMd (path : Text) : Text := (go path.reverse).reverse
where
  go : Text → Text
    | 'd' :: 'm' :: '.' :: cs => go cs
    | cs => cs

def bare (nodeId : Text) : Text := (stripPrefix "memory:".toList nodeId).getD nodeId

def EdgeRow.key (e : EdgeRow) : List Text := [e.src, e.dst, e.edgeType]

/-- The links so far, with the note each belongs to, and the ends and types that were seen. -/
structure Related where
  links : List (Text × RelatedLink)
  seen : List (Text × Text × Text)

def Related.push (rows : List NoteRow) (paths : List (Text × Text)) (s : Related) (edgeType source target : Text) :
    Related :=
  match rows.find? (·.id = source), rows.find? (·.id = target) with
  | some _, some row =>
    if source = target ∨ (source, target, edgeType) ∈ s.seen then s
    else
      ⟨s.links ++ [(source, ⟨trimMd ((paths.lookup target).getD []), row.title, edgeType⟩)],
        (source, target, edgeType) :: s.seen⟩
  | _, _ => s

def Related.edge (rows : List NoteRow) (paths : List (Text × Text)) (s : Related) (e : EdgeRow) : Related :=
  let src := bare e.src
  let dst := bare e.dst
  (s.push rows paths e.edgeType src dst).push rows paths e.edgeType dst src

def relatedLinks (rows : List NoteRow) (paths : List (Text × Text)) (edges : List EdgeRow) : List (Text × RelatedLink) :=
  ((edges.insertionSort fun a b : EdgeRow => a.key ≤ b.key).foldl (Related.edge rows paths) ⟨[], []⟩).links

def relatedCap : ℕ := 8

def linksOf (links : List (Text × RelatedLink)) (id : Text) : List RelatedLink :=
  let own := (links.filter (·.1 = id)).map Prod.snd
  let sorted := own.insertionSort fun a b : RelatedLink => [a.edgeType, a.target] ≤ [b.edgeType, b.target]
  (sorted.destutter fun a b : RelatedLink => ¬ (a.target = b.target ∧ a.edgeType = b.edgeType)).take relatedCap

/-- The realms that have notes below `notes/`. -/
def notedRealms (rows : List NoteRow) (pathOf : NoteRow → Text) : List Text :=
  (((rows.filter fun r => r.memoryType ≠ "entity".toList ∧ "notes/".toList.isPrefixOf (pathOf r)).map
    NoteRow.realm).dedup).insertionSort (· ≤ ·)

def realmIndexPath (realm : Text) : Text := "notes/".toList ++ sanitizeRealmSegment realm ++ "/index.md".toList

/-- `render_realm_indexes`, with their paths. -/
def realmIndexes (texts : Texts) (cfg : BrainConfig) (rows : List NoteRow) (paths : List (Text × Text)) :
    List VaultFile :=
  match cfg.layout with
  | .flat => []
  | .byRealm =>
    let pathOf (r : NoteRow) : Text := (paths.lookup r.id).getD []
    (notedRealms rows pathOf).map fun realm =>
      ⟨realmIndexPath realm, texts.realmIndex realm (rows.filter fun r => r.realm = realm ∧
        r.memoryType ≠ "entity".toList ∧ "notes/".toList.isPrefixOf (pathOf r)) paths⟩

structure VaultPlan where
  files : List VaultFile
  manifest : Manifest
  noteCount : ℕ

def noteFile (texts : Texts) (cfg : BrainConfig) (links : List (Text × RelatedLink)) (paths : List (Text × Text))
    (row : NoteRow) : VaultFile :=
  ⟨(paths.lookup row.id).getD [], texts.note row (linksOf links row.id) cfg.filters.redactPrivateSpans⟩

def pages (texts : Texts) (cfg : BrainConfig) (rows : List NoteRow) (paths : List (Text × Text)) : List VaultFile :=
  [⟨"README.md".toList, texts.readme cfg⟩, ⟨"CONTRIBUTING.md".toList, texts.contributing cfg⟩,
    ⟨"index.md".toList, texts.index cfg rows paths⟩] ++ realmIndexes texts cfg rows paths

def planFiles (texts : Texts) (cfg : BrainConfig) (rows : List NoteRow) (edges : List EdgeRow)
    (paths : List (Text × Text)) : VaultPlan :=
  let links := relatedLinks rows paths edges
  let notes := rows.map (noteFile texts cfg links paths)
  let pages := pages texts cfg rows paths
  let entries : List ManifestEntry := (rows.map fun row => ⟨(paths.lookup row.id).getD [], some row.id⟩) ++
    pages.map (fun f => ⟨f.path, none⟩) ++ [⟨manifestPath, none⟩]
  let manifest : Manifest := ⟨Manifest.currentVersion, entries⟩
  let files : List VaultFile := notes ++ pages ++ [⟨manifestPath, texts.toBytes manifest⟩]
  ⟨files.insertionSort fun a b => a.path ≤ b.path, manifest, rows.length⟩

/-- **The files of the vault**. -/
def planVault (texts : Texts) (cfg : BrainConfig) (prior : Manifest) (nodes : List NoteRow) (edges : List EdgeRow) :
    Planned VaultPlan :=
  let rows := byId cfg nodes
  match assign cfg prior rows with
  | .runsOn => .runsOn
  | .invalidPath p => .invalidPath p
  | .ok paths => .ok (planFiles texts cfg rows edges paths)

end Brain
