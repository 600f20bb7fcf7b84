/-
**Exports of a brain.**

A brain's repository is written from both sides: users push any tree, and an export commits the
files of the vault anew.
-/

import Pensieve.VaultPaths
import Pensieve.Runs

namespace Brain

open List

/-! ### Trees -/

/-- The path `p` is below the directory `q`. -/
def Below (p q : Text) : Prop := q ++ ['/'] <+: p

instance (p q : Text) : Decidable (Below p q) := inferInstanceAs (Decidable (q ++ ['/'] <+: p))

/-- A file at `p` that is set after one at `q`, in the order of paths, takes its place. -/
def Covers (p q : Text) : Prop := p = q ∨ Below p q

instance (p q : Text) : Decidable (Covers p q) := inferInstanceAs (Decidable (p = q ∨ Below p q))

theorem lt_append_cons (q rest : Text) (c : Char) : q < q ++ c :: rest := by
  induction q with
  | nil => exact nil_lt_cons c rest
  | cons d q ih => exact cons_lt_cons_iff.2 (.inr ⟨rfl, ih⟩)

theorem lt_of_below {p q : Text} (h : Below p q) : q < p := by
  obtain ⟨rest, rfl⟩ := h
  rw [append_assoc]
  exact lt_append_cons q rest '/'

instance : Std.Total fun a b : VaultFile => a.path ≤ b.path where
  total a b := le_total a.path b.path

instance : IsTrans VaultFile fun a b => a.path ≤ b.path where
  trans _ _ _ := le_trans

/-- The tree of a commit: the files by their paths, none of them below another. -/
structure Tree where
  files : List VaultFile
  sorted : files.Pairwise (·.path < ·.path)
  apart : ∀ f ∈ files, ∀ g ∈ files, ¬ Below g.path f.path

/-- `cat_file` of a path. -/
def Tree.get (t : Tree) (path : Text) : Option Bytes := (t.files.find? (·.path = path)).map VaultFile.bytes

variable {f : VaultFile}

theorem Tree.eq_of_path {t : Tree} {g : VaultFile} (hf : f ∈ t.files) (hg : g ∈ t.files)
    (h : f.path = g.path) : f = g := by
  have hdistinct : (t.files.map VaultFile.path).Nodup := pairwise_map.2 (t.sorted.imp fun hlt => hlt.ne)
  exact inj_on_of_nodup_map hdistinct hf hg h

theorem Tree.get_of_mem {t : Tree} (hf : f ∈ t.files) : t.get f.path = some f.bytes := by
  unfold Tree.get
  cases hfind : t.files.find? (·.path = f.path) with
  | none =>
    have hnone := find?_eq_none.1 hfind f hf
    simp at hnone
  | some g =>
    have hpath : g.path = f.path := by simpa using find?_some hfind
    rw [t.eq_of_path (mem_of_find?_eq_some hfind) hf hpath]
    rfl

/-- A path that stands in the stream of `git fast-import` as it is. -/
def PlainPath (path : Text) : Prop := '\n' ∉ path ∧ path.head? ≠ some '"'

instance (path : Text) : Decidable (PlainPath path) :=
  inferInstanceAs (Decidable ('\n' ∉ path ∧ path.head? ≠ some '"'))

/-- **What `git fast-import` makes of a stream** that clears the tree and then sets one file after the other: each file
of the tree is one of the stream, and a file is in the tree unless a later one takes its place. -/
structure FastImport where
  commit : List VaultFile → Option Tree
  mem_of_mem : ∀ {files : List VaultFile} {t : Tree}, commit files = some t → (∀ f ∈ files, PlainPath f.path) →
    ∀ f ∈ t.files, f ∈ files
  lasts : ∀ {pre post : List VaultFile} {f : VaultFile} {t : Tree}, commit (pre ++ f :: post) = some t →
    (∀ g ∈ pre ++ f :: post, PlainPath g.path) →
    (∀ g ∈ post, g ≠ f → ¬ Covers g.path f.path ∧ ¬ Below f.path g.path) → f ∈ t.files

/-! ### Exports -/

/-- What an export uses: the texts of the pages, the contents of the first files, the body that a file is read as, the
codec of the manifest, and git. -/
structure Env where
  texts : Texts
  seed : Text → BrainConfig → Bytes
  body : Bytes → Option Text
  fromBytes : Bytes → Option Manifest
  fromBytes_toBytes : ∀ m, fromBytes (texts.toBytes m) =
    some ⟨m.version, m.entries.insertionSort fun a b => a.path ≤ b.path⟩
  git : FastImport

/-- `brain:<name>:<path>` -/
def topicKey (brain relPath : Text) : Text := "brain:".toList ++ brain ++ ':' :: relPath

def Manifest.default : Manifest := ⟨0, []⟩

def readPriorManifest (env : Env) (head : Option Tree) : Manifest :=
  match head with
  | none => .default
  | some t =>
    match t.get manifestPath with
    | some bytes => (env.fromBytes bytes).getD .default
    | none => .default

def ingestedPaths (cfg : BrainConfig) (nodes : List NoteRow) : List Text :=
  nodes.filterMap fun n => n.topicKey.bind (stripPrefix (topicKey cfg.name []))

def preserved (prior : Manifest) (plan : VaultPlan) (cfg : BrainConfig) (nodes : List NoteRow) (head : Option Tree) :
    List VaultFile :=
  match head with
  | none => []
  | some t => t.files.filter fun f =>
    !(prior.ownedPaths.contains f.path || (plan.files.map VaultFile.path).contains f.path ||
      (ingestedPaths cfg nodes).contains f.path)

def seedPaths : List Text :=
  [".obsidian/app.json".toList, ".obsidian/graph.json".toList, ".gitignore".toList, "inbox/README.md".toList]

def seedFiles (env : Env) (cfg : BrainConfig) : List VaultFile := seedPaths.map fun p => ⟨p, env.seed p cfg⟩

def exportFiles (env : Env) (head : Option Tree) (cfg : BrainConfig) (nodes : List NoteRow) (plan : VaultPlan) :
    List VaultFile :=
  let files := plan.files ++ preserved (readPriorManifest env head) plan cfg nodes head
  let files :=
    if head.isNone then files ++ (seedFiles env cfg).filter fun f => !(files.map VaultFile.path).contains f.path
    else files
  files.insertionSort fun a b => a.path ≤ b.path

structure ExportOutcome where
  tree : Tree
  noop : Bool
  filesWritten : ℕ
  noteCount : ℕ
  filesPreserved : ℕ

/-- **One export** (`run_export`); there is no outcome if the plan or git fails.  A tree that is the head's is no new
commit. -/
def runExport (env : Env) (head : Option Tree) (cfg : BrainConfig) (nodes : List NoteRow) (edges : List EdgeRow) :
    Option ExportOutcome :=
  let prior := readPriorManifest env head
  match planVault env.texts cfg prior nodes edges with
  | .ok plan =>
    let files := exportFiles env head cfg nodes plan
    (env.git.commit files).map fun tree =>
      ⟨tree, (head.map Tree.files) = some tree.files, files.length, plan.noteCount,
        (preserved prior plan cfg nodes head).length⟩
  | _ => none

/-! ### The repository -/

/-- The repository: its head, the paths that any export generated, and those of the last one. -/
structure State where
  head : Option Tree
  ever : List Text
  last : List Text

def State.init : State := ⟨none, [], []⟩

def State.files (s : State) : List VaultFile := (s.head.map Tree.files).getD []

inductive Action where
  | export (cfg : BrainConfig) (nodes : List NoteRow) (edges : List EdgeRow)
  | push (tree : Tree)

def generatedBy (env : Env) (head : Option Tree) (cfg : BrainConfig) (nodes : List NoteRow) (edges : List EdgeRow) :
    List Text :=
  match planVault env.texts cfg (readPriorManifest env head) nodes edges with
  | .ok plan => plan.files.map VaultFile.path
  | _ => []

/-- **The repository as exports and pushes come**: a push that is accepted brings any tree. -/
def step (env : Env) (s : State) : Action → Option State
  | .export cfg nodes edges => (runExport env s.head cfg nodes edges).map fun out =>
    let paths := generatedBy env s.head cfg nodes edges
    ⟨some out.tree, s.ever ++ paths, paths⟩
  | .push tree => some { s with head := some tree }

def Refiled (env : Env) (cfg : BrainConfig) (nodes : List NoteRow) (f : VaultFile) (tree : Tree) : Prop :=
  ∃ row ∈ nodes, row.topicKey = some (topicKey cfg.name f.path) ∧ env.body f.bytes = some row.content ∧
    ∃ p links, ⟨p, env.texts.note row links cfg.filters.redactPrivateSpans⟩ ∈ tree.files

/-- **What an export is to keep and to drop**: each file of the head that no export generated is in the new tree, or its
memory has a note there; and no path that an earlier export generated is in it unless the plan generates it again. -/
structure Preserves (env : Env) (s : State) (cfg : BrainConfig) (nodes : List NoteRow) (edges : List EdgeRow)
    (tree : Tree) : Prop where
  keeps : ∀ f ∈ s.files, f.path ∉ s.ever → f ∈ tree.files ∨ Refiled env cfg nodes f tree
  drops : ∀ f ∈ tree.files, f.path ∈ s.ever → f.path ∈ generatedBy env s.head cfg nodes edges

/-! ### The condition -/

def Lasting (s : State) (plan : VaultPlan) (g : VaultFile) : Prop :=
  ∀ h ∈ plan.files ++ s.files.filter (·.path ∉ s.ever), h ≠ g → ¬ Covers h.path g.path

instance (s : State) (plan : VaultPlan) (g : VaultFile) : Decidable (Lasting s plan g) :=
  inferInstanceAs (Decidable (∀ h ∈ plan.files ++ s.files.filter (·.path ∉ s.ever), h ≠ g → ¬ Covers h.path g.path))

/-- **The condition on one export**: all paths are plain, the manifest lasts, and each file of the users either is named
by no memory's topic key and has no generated file at its path or below it, or it is named by that of a memory that
passes the filters, has the file's body for its content, and has a note that lasts. -/
structure HeedsExport (env : Env) (s : State) (cfg : BrainConfig) (nodes : List NoteRow) (plan : VaultPlan) : Prop where
  plain : ∀ g ∈ plan.files, PlainPath g.path
  manifest : Lasting s plan ⟨manifestPath, env.texts.toBytes plan.manifest⟩
  users : ∀ f ∈ s.files, f.path ∉ s.ever →
    ((f ∈ plan.files ∨ f.path ∉ ingestedPaths cfg nodes) ∧ ∀ g ∈ plan.files, g ≠ f → ¬ Covers g.path f.path) ∨
      ∃ row ∈ byId cfg nodes, row.topicKey = some (topicKey cfg.name f.path) ∧ env.body f.bytes = some row.content ∧
        ∃ p links, ⟨p, env.texts.note row links cfg.filters.redactPrivateSpans⟩ ∈ plan.files ∧
          Lasting s plan ⟨p, env.texts.note row links cfg.filters.redactPrivateSpans⟩

/-- **The condition on pushes and exports**: a push leaves the manifest as it is, brings plain paths, and brings back no
path that only exports before the last generated. -/
def Heeds (env : Env) (s : State) : Action → Prop
  | .export cfg nodes edges => ∀ plan,
      planVault env.texts cfg (readPriorManifest env s.head) nodes edges = .ok plan → HeedsExport env s cfg nodes plan
  | .push tree => tree.get manifestPath = s.head.bind (Tree.get · manifestPath) ∧
      ∀ f ∈ tree.files, PlainPath f.path ∧ (f.path ∈ s.ever → f.path ∈ s.last)

/-! ### Plans and manifests -/

variable {env : Env} {cfg : BrainConfig} {prior : Manifest} {nodes : List NoteRow} {edges : List EdgeRow}
  {plan : VaultPlan}

theorem owned_of_plan (h : planVault env.texts cfg prior nodes edges = .ok plan) :
    (∀ p, p ∈ plan.manifest.ownedPaths ↔ p ∈ plan.files.map VaultFile.path) ∧
      ⟨manifestPath, env.texts.toBytes plan.manifest⟩ ∈ plan.files := by
  unfold planVault at h
  dsimp only at h
  split at h
  · cases h
  · cases h
  · rename_i paths hassign
    cases h
    unfold planFiles Manifest.ownedPaths
    dsimp only
    refine ⟨fun p => ?_, ?_⟩
    · rw [((perm_insertionSort _ _).map VaultFile.path).mem_iff]
      simp only [map_append, map_map, mem_append, map_cons, map_nil]
      rfl
    · rw [mem_insertionSort]
      exact mem_append_right _ (mem_singleton_self _)

theorem readPriorManifest_eq (env : Env) (head : Option Tree) : readPriorManifest env head =
    ((head.bind (Tree.get · manifestPath)).bind env.fromBytes).getD .default := by
  unfold readPriorManifest
  cases head with
  | none => rfl
  | some t =>
    cases hget : t.get manifestPath with
    | none | some bytes => simp [hget]

theorem owned_readPriorManifest {t : Tree} {m : Manifest} (h : ⟨manifestPath, env.texts.toBytes m⟩ ∈ t.files)
    (p : Text) : p ∈ (readPriorManifest env (some t)).ownedPaths ↔ p ∈ m.ownedPaths := by
  have hget : t.get manifestPath = some (env.texts.toBytes m) := Tree.get_of_mem h
  rw [readPriorManifest_eq, Option.bind_some, hget, Option.bind_some, env.fromBytes_toBytes]
  exact ((perm_insertionSort _ _).map ManifestEntry.path).mem_iff

/-! ### The files of an export -/

variable {head : Option Tree}

theorem mem_exportFiles : f ∈ exportFiles env head cfg nodes plan ↔
    f ∈ plan.files ∨ f ∈ preserved (readPriorManifest env head) plan cfg nodes head ∨
      head = none ∧ f ∈ seedFiles env cfg ∧
        f.path ∉ (plan.files ++ preserved (readPriorManifest env head) plan cfg nodes head).map VaultFile.path := by
  unfold exportFiles
  dsimp only
  rw [mem_insertionSort]
  cases head with
  | none =>
    rw [if_pos Option.isNone_none, mem_append, mem_append, mem_filter, or_assoc]
    simp only [contains_eq_mem, Bool.not_eq_true', decide_eq_false_iff_not, true_and]
  | some t =>
    have hsome : ¬ ((some t).isNone = true) := by simp
    rw [if_neg hsome, mem_append]
    simp

theorem mem_preserved : f ∈ preserved prior plan cfg nodes head ↔
    f ∈ (head.map Tree.files).getD [] ∧ f.path ∉ prior.ownedPaths ∧ f.path ∉ plan.files.map VaultFile.path ∧
      f.path ∉ ingestedPaths cfg nodes := by
  unfold preserved
  cases head with
  | none => simp
  | some t => simp [and_assoc]

theorem mem_of_lasts {t : Tree} (h : env.git.commit (exportFiles env head cfg nodes plan) = some t)
    (hplain : ∀ g ∈ exportFiles env head cfg nodes plan, PlainPath g.path)
    (hf : f ∈ exportFiles env head cfg nodes plan)
    (hlasts : ∀ g ∈ exportFiles env head cfg nodes plan, g ≠ f → ¬ Covers g.path f.path) : f ∈ t.files := by
  have hsorted : (exportFiles env head cfg nodes plan).Pairwise fun a b => a.path ≤ b.path :=
    pairwise_insertionSort _ _
  obtain ⟨pre, post, hsplit⟩ := append_of_mem hf
  rw [hsplit] at h hplain hlasts hsorted
  refine env.git.lasts h hplain fun g hg hne => ⟨hlasts g ?_ hne, fun hbelow => ?_⟩
  · exact mem_append_right _ (mem_cons_of_mem _ hg)
  · -- a directory of the file comes before it
    have hle := (pairwise_cons.1 (pairwise_append.1 hsorted).2.1).1 g hg
    exact absurd (lt_of_below hbelow) (not_lt.2 hle)

/-! ### The invariant -/

/-- **What holds in every state**: the manifest in the head is that of the last export, and of the paths that were ever
generated only those of the last export are left. -/
structure Inv (env : Env) (s : State) : Prop where
  lastEver : ∀ p ∈ s.last, p ∈ s.ever
  fresh : s.head = none → s.ever = []
  owned : ∀ p, p ∈ (readPriorManifest env s.head).ownedPaths ↔ p ∈ s.last
  left : ∀ f ∈ s.files, f.path ∈ s.ever → f.path ∈ s.last
  plain : ∀ f ∈ s.files, PlainPath f.path

theorem Inv.init : Inv env State.init where
  lastEver := by simp [State.init]
  fresh _ := rfl
  owned p := by simp [State.init, readPriorManifest, Manifest.default, Manifest.ownedPaths]
  left := by simp [State.init, State.files]
  plain := by simp [State.init, State.files]

theorem Inv.not_ever_of_preserved {s : State} (hinv : Inv env s)
    (hf : f ∈ preserved (readPriorManifest env s.head) plan cfg nodes s.head) : f ∈ s.files ∧ f.path ∉ s.ever := by
  obtain ⟨hmem, howned, -, -⟩ := mem_preserved.1 hf
  exact ⟨hmem, fun hever => howned ((hinv.owned _).2 (hinv.left f hmem hever))⟩

theorem plain_seedFiles (hf : f ∈ seedFiles env cfg) : PlainPath f.path := by
  obtain ⟨p, hp, rfl⟩ := mem_map.1 hf
  have hall : ∀ p ∈ seedPaths, PlainPath p := by decide
  exact hall p hp

theorem not_covers_manifest (hf : f ∈ seedFiles env cfg) : ¬ Covers f.path manifestPath := by
  obtain ⟨p, hp, rfl⟩ := mem_map.1 hf
  have hall : ∀ p ∈ seedPaths, ¬ Covers p manifestPath := by decide
  exact hall p hp

section Export

variable {s : State} {t : Tree} (hinv : Inv env s) (hheeds : HeedsExport env s cfg nodes plan)
  (hcommit : env.git.commit (exportFiles env s.head cfg nodes plan) = some t)
include hinv hheeds

theorem plain_exportFiles : ∀ g ∈ exportFiles env s.head cfg nodes plan, PlainPath g.path := by
  intro g hg
  rcases mem_exportFiles.1 hg with hg | hg | ⟨-, hg, -⟩
  · exact hheeds.plain g hg
  · exact hinv.plain g (hinv.not_ever_of_preserved hg).1
  · exact plain_seedFiles hg

theorem mem_of_lasting (hcommit : env.git.commit (exportFiles env s.head cfg nodes plan) = some t) {g : VaultFile}
    (hg : g ∈ plan.files) (hlasting : Lasting s plan g)
    (hseed : s.head = none → ∀ f ∈ seedFiles env cfg, ¬ Covers f.path g.path) : g ∈ t.files := by
  refine mem_of_lasts hcommit (plain_exportFiles hinv hheeds) (mem_exportFiles.2 (.inl hg)) fun f hf hne => ?_
  rcases mem_exportFiles.1 hf with hf | hf | ⟨hnone, hf, -⟩
  · exact hlasting f (mem_append_left _ hf) hne
  · obtain ⟨hmem, hever⟩ := hinv.not_ever_of_preserved hf
    exact hlasting f (mem_append_right _ (mem_filter.2 ⟨hmem, by simpa using hever⟩)) hne
  · exact hseed hnone f hf

include hcommit

theorem keeps_of_heeds {f : VaultFile} (hf : f ∈ s.files) (hever : f.path ∉ s.ever) :
    f ∈ t.files ∨ Refiled env cfg nodes f t := by
  have hsome : s.head ≠ none := by
    intro hnone
    rw [State.files, hnone] at hf
    cases hf
  rcases hheeds.users f hf hever with ⟨hpath, hfree⟩ | ⟨row, hrow, hkey, hbody, p, links, hmem, hlasting⟩
  · have hexport : f ∈ exportFiles env s.head cfg nodes plan := by
      by_cases hplanned : f ∈ plan.files
      · exact mem_exportFiles.2 (.inl hplanned)
      · have howned : f.path ∉ (readPriorManifest env s.head).ownedPaths := fun h =>
          hever (hinv.lastEver _ ((hinv.owned _).1 h))
        have hother : f.path ∉ plan.files.map VaultFile.path := by
          intro h
          obtain ⟨g, hg, heq⟩ := mem_map.1 h
          exact hfree g hg (fun hgf => hplanned (hgf ▸ hg)) (.inl heq)
        exact mem_exportFiles.2 (.inr (.inl (mem_preserved.2 ⟨hf, howned, hother, hpath.resolve_left hplanned⟩)))
    refine .inl (mem_of_lasts hcommit (plain_exportFiles hinv hheeds) hexport fun g hg hne hcovers => ?_)
    rcases mem_exportFiles.1 hg with hg | hg | ⟨hnone, -⟩
    · exact hfree g hg hne hcovers
    · -- two files of the head do not stand in each other's way
      have hghead := (hinv.not_ever_of_preserved hg).1
      obtain ⟨head, hhead⟩ := Option.ne_none_iff_exists'.1 hsome
      rw [State.files, hhead] at hf hghead
      rcases hcovers with heq | hbelow
      · exact hne (head.eq_of_path hghead hf heq)
      · exact head.apart f hf g hghead hbelow
    · exact hsome hnone
  · exact .inr ⟨row, mem_of_mem_byId hrow, hkey, hbody, p, links,
      mem_of_lasting hinv hheeds hcommit hmem hlasting fun hnone => absurd hnone hsome⟩

theorem drops_of_heeds {f : VaultFile} (hf : f ∈ t.files) (hever : f.path ∈ s.ever) :
    f.path ∈ plan.files.map VaultFile.path := by
  have hexport := env.git.mem_of_mem hcommit (plain_exportFiles hinv hheeds) f hf
  rcases mem_exportFiles.1 hexport with hplanned | hkept | ⟨hnone, -⟩
  · exact mem_map_of_mem hplanned
  · exact absurd hever (hinv.not_ever_of_preserved hkept).2
  · rw [hinv.fresh hnone] at hever
    cases hever

theorem Inv.export (hplan : planVault env.texts cfg (readPriorManifest env s.head) nodes edges = .ok plan) :
    Inv env ⟨some t, s.ever ++ plan.files.map VaultFile.path, plan.files.map VaultFile.path⟩ where
  lastEver p hp := mem_append_right _ hp
  fresh h := by cases h
  owned p := by
    obtain ⟨howned, hmanifest⟩ := owned_of_plan hplan
    have hmem := mem_of_lasting hinv hheeds hcommit hmanifest hheeds.manifest fun _ f hf => not_covers_manifest hf
    exact (owned_readPriorManifest hmem p).trans (howned p)
  left f hf hever := by
    rcases mem_append.1 hever with hever | hnow
    · exact drops_of_heeds hinv hheeds hcommit hf hever
    · exact hnow
  plain f hf := plain_exportFiles hinv hheeds f (env.git.mem_of_mem hcommit (plain_exportFiles hinv hheeds) f hf)

end Export

theorem runExport_eq_some {out : ExportOutcome}
    (h : runExport env head cfg nodes edges = some out) : ∃ plan,
      planVault env.texts cfg (readPriorManifest env head) nodes edges = .ok plan ∧
      env.git.commit (exportFiles env head cfg nodes plan) = some out.tree ∧
      generatedBy env head cfg nodes edges = plan.files.map VaultFile.path := by
  unfold runExport at h
  unfold generatedBy
  dsimp only at h
  split at h
  · rename_i plan hplan
    obtain ⟨tree, htree, rfl⟩ := Option.map_eq_some_iff.1 h
    rw [hplan]
    exact ⟨plan, rfl, htree, rfl⟩
  · cases h

theorem Inv.step {s s' : State} {a : Action} (hinv : Inv env s) (hheeds : Heeds env s a)
    (hstep : Brain.step env s a = some s') : Inv env s' := by
  cases a with
  | «export» cfg nodes edges =>
    obtain ⟨out, hout, rfl⟩ := Option.map_eq_some_iff.1 hstep
    obtain ⟨plan, hplan, hcommit, hgenerated⟩ := runExport_eq_some hout
    dsimp only
    rw [hgenerated]
    exact hinv.export (hheeds plan hplan) hcommit hplan
  | push tree =>
    cases hstep
    obtain ⟨hsame, hfiles⟩ := hheeds
    refine ⟨hinv.lastEver, (fun h => by cases h), fun p => ?_, fun f hf hever => ?_, fun f hf => (hfiles f hf).1⟩
    · have hread : readPriorManifest env (some tree) = readPriorManifest env s.head := by
        rw [readPriorManifest_eq, readPriorManifest_eq, Option.bind_some, hsame]
      dsimp only
      rw [hread]
      exact hinv.owned p
    · exact (hfiles f hf).2 hever

theorem inv_of_reach {s : State} (h : Runs.Reach (step env) (Heeds env) State.init s) : Inv env s :=
  h.inv .init fun _ _ _ hinv hheeds hstep => hinv.step hheeds hstep

/-- **Every export keeps the users' files** and drops what is no longer generated, in every run in which pushes and
exports heed the condition. -/
theorem preserves_of_heeds (env : Env) {s : State} (h : Runs.Reach (step env) (Heeds env) State.init s)
    {cfg : BrainConfig} {nodes : List NoteRow} {edges : List EdgeRow} {out : ExportOutcome}
    (hheeds : Heeds env s (.export cfg nodes edges)) (hout : runExport env s.head cfg nodes edges = some out) :
    Preserves env s cfg nodes edges out.tree := by
  have hinv := inv_of_reach h
  obtain ⟨plan, hplan, hcommit, hgenerated⟩ := runExport_eq_some hout
  refine ⟨fun f hf hever => ?_, fun f hf hever => ?_⟩
  · exact keeps_of_heeds hinv (hheeds plan hplan) hcommit hf hever
  · rw [hgenerated]
    exact drops_of_heeds hinv (hheeds plan hplan) hcommit hf hever


/-! #### An archived memory -/

def Tree.set (t : Tree) (f : VaultFile) : Tree where
  files := (t.files.filter fun g => ¬ (Covers g.path f.path ∨ Below f.path g.path)).orderedInsert
    (fun a b : VaultFile => a.path ≤ b.path) f
  sorted := by
    have hle := ((t.sorted.imp le_of_lt).filter fun g => ¬ (Covers g.path f.path ∨ Below f.path g.path)).orderedInsert
      (r := fun a b : VaultFile => a.path ≤ b.path) f
    have hdistinct : (t.files.map VaultFile.path).Nodup := pairwise_map.2 (t.sorted.imp fun hlt => hlt.ne)
    have hnodup : ((t.files.filter fun g => ¬ (Covers g.path f.path ∨ Below f.path g.path)).orderedInsert
        (fun a b : VaultFile => a.path ≤ b.path) f).map VaultFile.path |>.Nodup := by
      rw [((perm_orderedInsert _ f _).map VaultFile.path).nodup_iff, map_cons, nodup_cons]
      refine ⟨fun hmem => ?_, hdistinct.sublist (filter_sublist.map _)⟩
      obtain ⟨g, hg, heq⟩ := mem_map.1 hmem
      have hclear := (mem_filter.1 hg).2
      rw [decide_eq_true_eq] at hclear
      exact hclear (.inl (.inl heq))
    exact (hle.and (pairwise_map.1 hnodup)).imp fun ⟨hle, hne⟩ => lt_of_le_of_ne hle hne
  apart := by
    have hfiles : ∀ g, g ∈ (t.files.filter fun g => ¬ (Covers g.path f.path ∨ Below f.path g.path)).orderedInsert
        (fun a b : VaultFile => a.path ≤ b.path) f →
        g = f ∨ g ∈ t.files ∧ ¬ (Covers g.path f.path ∨ Below f.path g.path) := by
      intro g hg
      rw [mem_orderedInsert, mem_filter, decide_eq_true_eq] at hg
      exact hg
    intro g hg h hh hbelow
    rcases hfiles g hg with rfl | ⟨hg, hgf⟩
    · rcases hfiles h hh with rfl | ⟨-, hhf⟩
      · exact lt_irrefl _ (lt_of_below hbelow)
      · exact hhf (.inl (.inr hbelow))
    · rcases hfiles h hh with rfl | ⟨hh, -⟩
      · exact hgf (.inr hbelow)
      · exact t.apart g hg h hh hbelow

theorem Tree.mem_set {t : Tree} {g : VaultFile} : g ∈ (t.set f).files ↔
    g = f ∨ g ∈ t.files ∧ ¬ (Covers g.path f.path ∨ Below f.path g.path) := by
  unfold Tree.set
  rw [mem_orderedInsert, mem_filter, decide_eq_true_eq]

def Tree.empty : Tree := ⟨[], .nil, by simp⟩

def replay : FastImport where
  commit files := some (files.foldl Tree.set .empty)
  mem_of_mem := by
    intro files t h _ f hf
    cases h
    have hfold : ∀ (files : List VaultFile) (t : Tree), f ∈ (files.foldl Tree.set t).files → f ∈ files ∨ f ∈ t.files := by
      intro files
      induction files with
      | nil => exact fun t hf => .inr hf
      | cons g files ih =>
        intro t hf
        rcases ih _ hf with hf | hf
        · exact .inl (mem_cons_of_mem g hf)
        · rcases Tree.mem_set.1 hf with rfl | ⟨hf, -⟩
          · exact .inl mem_cons_self
          · exact .inr hf
    exact (hfold files .empty hf).resolve_right (by simp [Tree.empty])
  lasts := by
    intro pre post f t h _ hpost
    cases h
    rw [foldl_append, foldl_cons]
    have hfold : ∀ (post : List VaultFile) (t : Tree), f ∈ t.files →
        (∀ g ∈ post, g ≠ f → ¬ Covers g.path f.path ∧ ¬ Below f.path g.path) → f ∈ (post.foldl Tree.set t).files := by
      intro post
      induction post with
      | nil => exact fun t hf _ => hf
      | cons g post ih =>
        intro t hf hpost
        refine ih _ (Tree.mem_set.2 ?_) fun h hh => hpost h (mem_cons_of_mem g hh)
        by_cases heq : g = f
        · exact .inl heq.symm
        · obtain ⟨hcovers, hbelow⟩ := hpost g mem_cons_self heq
          refine .inr ⟨hf, ?_⟩
          rintro ((hpath | hbelow') | hbelow')
          · exact hcovers (.inl hpath.symm)
          · exact hbelow hbelow'
          · exact hcovers (.inr hbelow')
    exact hfold post _ (Tree.mem_set.2 (.inl rfl)) hpost

def writeText : Text → Bytes
  | [] => [0]
  | c :: cs => 1 :: .ofNat (c.toNat / 65536) :: .ofNat (c.toNat / 256) :: .ofNat c.toNat :: writeText cs

def readTexts : Bytes → Option (List Text)
  | [] => some []
  | 0 :: rest => (readTexts rest).map ([] :: ·)
  | _ :: x :: y :: z :: rest =>
    match readTexts rest with
    | some (cs :: texts) => some ((Char.ofNat (x.toNat * 65536 + y.toNat * 256 + z.toNat) :: cs) :: texts)
    | _ => none
  | _ => none

theorem readTexts_letter (x y z : UInt8) (rest : Bytes) : readTexts (1 :: x :: y :: z :: rest) =
    match readTexts rest with
    | some (cs :: texts) => some ((Char.ofNat (x.toNat * 65536 + y.toNat * 256 + z.toNat) :: cs) :: texts)
    | _ => none := rfl

theorem readTexts_writeText (cs : Text) (rest : Bytes) :
    readTexts (writeText cs ++ rest) = (readTexts rest).map (cs :: ·) := by
  induction cs with
  | nil =>
    rw [writeText, singleton_append, readTexts]
  | cons c cs ih =>
    have hc : c.toNat < 16777216 := by
      have hvalid := c.valid
      have hval : c.toNat = c.val.toNat := rfl
      rcases hvalid with h | ⟨-, h⟩
      · omega
      · omega
    have hsum : (c.toNat / 65536) % 256 * 65536 + (c.toNat / 256) % 256 * 256 + c.toNat % 256 = c.toNat := by omega
    rw [writeText, cons_append, cons_append, cons_append, cons_append, readTexts_letter, ih]
    cases readTexts rest with
    | none => rfl
    | some texts =>
      simp only [Option.map_some, UInt8.toNat_ofNat', Nat.reducePow, hsum, Char.ofNat_toNat]

theorem readTexts_flatMap (texts : List Text) : readTexts (texts.flatMap writeText) = some texts := by
  induction texts with
  | nil => rfl
  | cons cs texts ih => rw [flatMap_cons, readTexts_writeText, ih, Option.map_some]

def fields (m : Manifest) : List Text :=
  List.replicate m.version 'v' :: m.entries.flatMap fun e => [e.path, (e.memoryId.map ('m' :: ·)).getD []]

def entriesOf : List Text → List ManifestEntry
  | p :: [] :: rest => ⟨p, none⟩ :: entriesOf rest
  | p :: (_ :: id) :: rest => ⟨p, some id⟩ :: entriesOf rest
  | _ => []

def manifestOf : List Text → Option Manifest
  | [] => none
  | v :: rest => some ⟨v.length, entriesOf rest⟩

theorem manifestOf_fields (m : Manifest) : manifestOf (fields m) = some m := by
  have hentries : ∀ es : List ManifestEntry,
      entriesOf (es.flatMap fun e => [e.path, (e.memoryId.map ('m' :: ·)).getD []]) = es := by
    intro es
    induction es with
    | nil => rfl
    | cons e es ih =>
      obtain ⟨path, memoryId⟩ := e
      cases memoryId with
      | none | some id => exact congrArg _ ih
  rw [fields, manifestOf, length_replicate, hentries]

def plainTexts : Texts where
  note row _ _ := row.content.map fun c => .ofNat c.toNat
  readme _ := []
  contributing _ := []
  index _ _ _ := []
  realmIndex _ _ _ := []
  toBytes m := (fields ⟨m.version, m.entries.insertionSort fun a b => a.path ≤ b.path⟩).flatMap writeText

def plainEnv : Env where
  texts := plainTexts
  seed _ _ := []
  body bytes := some (bytes.map fun b => Char.ofNat b.toNat)
  fromBytes bytes := (readTexts bytes).bind manifestOf
  fromBytes_toBytes m := by
    rw [plainTexts, readTexts_flatMap, Option.bind_some, manifestOf_fields]
  git := replay

def image : VaultFile := ⟨"a.png".toList, [137, 80]⟩

set_option maxRecDepth 8000 in
/-- One image, and a brain without notes. -/
theorem preserves_of_heeds_image : ∃ out, runExport plainEnv (some (Tree.empty.set image)) allRealms [] [] = some out ∧
      Preserves plainEnv ⟨some (Tree.empty.set image), [], []⟩ allRealms [] [] out.tree := by
  have h₀ : Runs.Reach (step plainEnv) (Heeds plainEnv) State.init State.init := .init
  have hpush : Heeds plainEnv State.init (.push (Tree.empty.set image)) := ⟨by decide, by decide⟩
  have h₁ := h₀.step (.push (Tree.empty.set image)) hpush rfl
  refine ⟨_, rfl, preserves_of_heeds plainEnv h₁ ?_ rfl⟩
  intro plan hplan
  cases hplan
  refine ⟨by decide, by decide, fun f hf _ => ?_⟩
  obtain rfl := mem_singleton.1 hf
  exact .inl ⟨.inr (by decide), by decide⟩

def inboxNote : VaultFile := ⟨"inbox/x.md".toList, "hi".toList.map fun c => .ofNat c.toNat⟩

def archivedNote : NoteRow :=
  { fact "m1".toList "default".toList "x".toList with
    content := "hi".toList, status := "archived".toList, topicKey := some "brain:team:inbox/x.md".toList }

set_option maxRecDepth 8000 in
/-- **A pushed note whose memory was archived**: the export drops the file, and no note has its text. -/
theorem drops_archived : ∃ s out, Runs.Reach (step plainEnv) Runs.Free State.init s ∧
    runExport plainEnv s.head allRealms [archivedNote] [] = some out ∧
      ¬ Preserves plainEnv s allRealms [archivedNote] [] out.tree := by
  have h₀ : Runs.Reach (step plainEnv) Runs.Free State.init State.init := .init
  have h₁ := h₀.step (.export allRealms [] []) trivial rfl
  let exported := (exportFiles plainEnv none allRealms [] (planFiles plainTexts allRealms [] [] [])).foldl Tree.set .empty
  have h₂ := h₁.step (.push (exported.set inboxNote)) trivial rfl
  refine ⟨_, _, h₂, rfl, fun h => ?_⟩
  rcases h.keeps inboxNote (by decide) (by decide) with hmem | ⟨row, hrow, -, -, p, links, hnote⟩
  · revert hmem
    decide
  · obtain rfl := mem_singleton.1 hrow
    have hbytes := mem_map_of_mem (f := VaultFile.bytes) hnote
    change inboxNote.bytes ∈ _ at hbytes
    revert hbytes
    decide

end Brain
