import SolutionTree.Proofs.Listing
import SolutionTree.Proofs.Path.Directory
import SolutionTree.Proofs.Scan.Walk

/-!
What a scan is to find, said of names and not of texts and paths.

`MakesTarget` says which directories make targets, and `Classifies` and `Describes`
what the targets are. The scanner enters the directories that the first keeps
(`keepsTo_keeps_iff`), and what it makes of a directory is described by the rest
(`describes_of_candidateOf`).
-/

namespace SolutionTree

namespace Project

/-! ### The rule -/

/-- Whether an exclude pattern matches the directory that names lead to. -/
def Excludes (project : Project) (names : List String) : Prop :=
  ∃ text ∈ project.settings.scan.exclude, ∃ pattern, Pattern.parse text = .ok pattern ∧
    Pattern.Matches pattern.tokens (Path.dirText names).toList

/-- A directory that makes a target: it directly holds a source, and no exclude
pattern matches it or, below the source root, a directory above it. -/
structure MakesTarget (project : Project) (tree : FileTree) (names : List String) : Prop where
  holds_source : ∃ name content, tree.find? (names ++ [name]) = some (.file content) ∧
    project.settings.scan.extensions.IsSourceName name
  kept : ∀ above, above ≠ [] → above <+: names → ¬ project.Excludes above

/-- The name that a directory gives its target. -/
def nameOf (project : Project) (names : List String) : String :=
  if names = [] then project.rootTargetName else String.intercalate "_" names

/-- The manifest of the directory that names lead to. -/
def manifestOf (project : Project) (fs : FileSystem) (names : List String) :
    Except Fault Manifest :=
  Manifest.load fs (project.sourceDir.under names) project.settings.layout.manifest
    project.includeBase

/-- What a directory passes on to the runnables in it: its manifest's name for an
executable or else its own, and the dependencies that its manifest declares. -/
structure Owns (project : Project) (fs : FileSystem) (names : List String) (owner : Owner) :
    Prop where
  relativeDir : owner.relativeDir = Path.dirText names
  declares : ∃ manifest, project.manifestOf fs names = .ok manifest ∧
    owner.name = manifest.executable.getD (project.nameOf names) ∧
    owner.dependencies = manifest.dependencies

/-- What a directory with a manifest makes: a name, a kind, and the owner of a
runnable. The source root has no last name, and no last name is empty, so that an
empty suffix makes no runnables. -/
inductive Classifies (project : Project) (fs : FileSystem) (names : List String)
    (manifest : Manifest) : String → Target.Kind → Option Owner → Prop where
  | executable {name : String} : manifest.executable = some name →
      Classifies project fs names manifest name .executable none
  | test {owner : Owner} : manifest.executable = none →
      names.getLast? = some project.settings.scan.testName →
      project.Owns fs names.dropLast owner →
      Classifies project fs names manifest (project.nameOf names) .test (some owner)
  | script {owner : Owner} : manifest.executable = none →
      names.getLast? ≠ some project.settings.scan.testName →
      names.getLast? = some project.settings.scan.scriptName →
      project.Owns fs names.dropLast owner →
      Classifies project fs names manifest (project.nameOf names) .script (some owner)
  | library : manifest.executable = none →
      names.getLast? ≠ some project.settings.scan.testName →
      names.getLast? ≠ some project.settings.scan.scriptName →
      Classifies project fs names manifest (project.nameOf names) .library none

/-- A target as the directory that names lead to describes it. -/
structure Describes (project : Project) (fs : FileSystem) (names : List String) (t : Target) :
    Prop where
  relativeDir : t.relativeDir = Path.dirText names
  manifest : project.manifestOf fs names = .ok t.manifest
  classified : project.Classifies fs names t.manifest t.name t.kind t.owner

section Classified

variable {project : Project} {fs : FileSystem} {names : List String} {manifest : Manifest}
  {name : String} {kind : Target.Kind} {owner? : Option Owner}

/-- A target is called what its manifest says, or else what its directory gives it.
-/
theorem Classifies.name_eq (h : project.Classifies fs names manifest name kind owner?) :
    name = manifest.executable.getD (project.nameOf names) := by
  cases h with
  | executable hexe => rw [hexe, Option.getD_some]
  | test hexe hlast howns => rw [hexe, Option.getD_none]
  | script hexe hfirst hlast howns => rw [hexe, Option.getD_none]
  | library hexe hfirst hlast => rw [hexe, Option.getD_none]

/-- The manifest is asked first, then the name of the directory; the name for tests
goes before that for scripts, should they be the same. -/
theorem Classifies.kind_eq (h : project.Classifies fs names manifest name kind owner?) :
    kind = if manifest.executable.isSome then .executable
      else if names.getLast? = some project.settings.scan.testName then .test
      else if names.getLast? = some project.settings.scan.scriptName then .script
      else .library := by
  cases h with
  | executable hexe => simp [hexe]
  | test hexe hlast howns => simp [hexe, hlast]
  | script hexe hfirst hlast howns =>
    simp only [hexe, Option.isSome_none, Bool.false_eq_true, ↓reduceIte, if_neg hfirst,
      if_pos hlast]
  | library hexe hfirst hlast => simp [hexe, hfirst, hlast]

theorem Classifies.owner_eq_none (h : project.Classifies fs names manifest name kind owner?)
    (hrun : kind.isRunnable = false) : owner? = none := by
  cases h with
  | executable hexe => rfl
  | test hexe hlast howns => contradiction
  | script hexe hfirst hlast howns => contradiction
  | library hexe hfirst hlast => rfl

end Classified

theorem MakesTarget.exists_dir {project : Project} {tree : FileTree} {names : List String}
    (h : project.MakesTarget tree names) : ∃ entries, tree.find? names = some (.dir entries) := by
  obtain ⟨name, content, hfile, -⟩ := h.holds_source
  exact FileTree.exists_dir_of_find?_concat hfile

theorem MakesTarget.isPlain {project : Project} {tree : FileTree} {names : List String}
    (h : project.MakesTarget tree names) (hwf : tree.WellFormed) :
    ∀ name ∈ names, Path.isPlain name = true := by
  obtain ⟨name, content, hfile, -⟩ := h.holds_source
  intro above hm
  exact hwf.isPlain_of_find? hfile above (List.mem_append_left [name] hm)

end Project

/-! ### Exclusion -/

theorem mem_of_parseExcludes {texts : List String} {patterns : List Pattern}
    (h : parseExcludes texts = .ok patterns) {pattern : Pattern} :
    pattern ∈ patterns ↔ ∃ text ∈ texts, Pattern.parse text = .ok pattern := by
  induction texts generalizing patterns with
  | nil =>
    obtain rfl : [] = patterns := Except.ok.inj h
    simp
  | cons text texts ih =>
    rw [parseExcludes] at h
    cases hparse : Pattern.parse text with
    | error e => simp [hparse] at h
    | ok first =>
      cases hrest : parseExcludes texts with
      | error fault => simp [hparse, hrest] at h
      | ok rest =>
        simp only [hparse, hrest] at h
        obtain rfl : first :: rest = patterns := Except.ok.inj h
        simp [ih hrest, hparse, eq_comm]

/-- The patterns of a project are compiled if and only if each of them can be read.
-/
theorem exists_patterns_iff {texts : List String} :
    (∃ patterns, parseExcludes texts = .ok patterns) ↔
      ∀ text ∈ texts, ∃ pattern, Pattern.parse text = .ok pattern := by
  induction texts with
  | nil => simp [parseExcludes]
  | cons text texts ih =>
    rw [List.forall_mem_cons, ← ih, parseExcludes]
    cases Pattern.parse text with
    | error e => simp
    | ok pattern => cases parseExcludes texts <;> simp

/-- The first pattern that cannot be read is the fault of all. -/
theorem parseExcludes_eq_error_iff {texts : List String} {fault : Fault} :
    parseExcludes texts = .error fault ↔ ∃ before text after, texts = before ++ text :: after ∧
      (∃ e, Pattern.parse text = .error e ∧ fault = .invalidPattern text e) ∧
      ∀ earlier ∈ before, ∃ pattern, Pattern.parse earlier = .ok pattern := by
  induction texts with
  | nil => simp [parseExcludes]
  | cons text texts ih =>
    rw [Sorting.exists_first_cons_iff, ← ih, parseExcludes]
    cases Pattern.parse text with
    | error e => simp [eq_comm]
    | ok pattern => cases parseExcludes texts <;> simp

namespace Scanner

variable {s : Scanner} {fs : FileSystem} {names : List String} {manifest : Manifest}

/-- Asking the compiled patterns is asking those of the settings. -/
theorem isExcluded_iff (hs : parseExcludes s.project.settings.scan.exclude = .ok s.excludes) :
    s.isExcluded (Path.dirText names) = true ↔ s.project.Excludes names := by
  simp only [isExcluded, List.any_eq_true, mem_of_parseExcludes hs, Pattern.matchesText_iff]
  constructor
  · rintro ⟨pattern, ⟨text, htext, hparse⟩, hmatches⟩
    exact ⟨text, htext, pattern, hparse, hmatches⟩
  · rintro ⟨text, htext, pattern, hparse, hmatches⟩
    exact ⟨pattern, ⟨text, htext, hparse⟩, hmatches⟩

section Kept

variable (h : ∀ name ∈ names, Path.isPlain name = true)
include h

/-- A directory is told by the names that lead to it from the source directory. -/
theorem textOf_under (hroot : s.project.sourceDir.text ≠ "") :
    s.textOf (s.project.sourceDir.under names) = Path.dirText names :=
  Path.textBelow_under h hroot

/-- The source directory itself is never asked for; any directory below it is kept
when no pattern matches it. -/
theorem keeps_under_iff (hs : parseExcludes s.project.settings.scan.exclude = .ok s.excludes)
    (hroot : s.project.sourceDir.text ≠ "") (hne : names ≠ []) :
    s.keeps (s.project.sourceDir.under names) = true ↔ ¬ s.project.Excludes names := by
  have htext : Path.dirText names ≠ "" := by
    intro hempty
    exact hne ((Path.dirText_eq_empty_iff h).mp hempty)
  rw [← isExcluded_iff hs, keeps, textOf_under h hroot]
  simp [htext]

/-- **What a scan keeps** is what no pattern excludes, on the way or at its end: an
excluded directory takes all below it with it. -/
theorem keepsTo_keeps_iff (hs : parseExcludes s.project.settings.scan.exclude = .ok s.excludes)
    (hroot : s.project.sourceDir.text ≠ "") :
    KeepsTo s.keeps s.project.sourceDir names ↔
      ∀ above, above ≠ [] → above <+: names → ¬ s.project.Excludes above := by
  apply forall_congr'
  intro above
  apply imp_congr_right
  intro hne
  apply imp_congr_right
  intro hpre
  have habove : ∀ name ∈ above, Path.isPlain name = true :=
    fun name hm => h name (hpre.subset hm)
  exact keeps_under_iff habove hs hroot hne

end Kept

/-- The listing of a directory that is kept makes it a target. Together with the
walk this is the rule of which directories do. -/
theorem hasSources_iff_makesTarget {tree : FileTree} {entries : List (String × FileTree)}
    (hs : parseExcludes s.project.settings.scan.exclude = .ok s.excludes)
    (hroot : s.project.sourceDir.text ≠ "") (hwf : tree.WellFormed)
    (hfind : tree.find? names = some (.dir entries))
    (hkeeps : KeepsTo s.keeps s.project.sourceDir names) :
    (Listing.ofEntries s.project.settings.scan.extensions (s.project.sourceDir.under names)
      entries).hasSources = true ↔ s.project.MakesTarget tree names := by
  have hplain := hwf.isPlain_of_find? hfind
  rw [Listing.hasSources_iff (Path.text_under_ne hroot hplain) hwf hfind]
  exact ⟨fun h => ⟨h, (keepsTo_keeps_iff hplain hs hroot).mp hkeeps⟩, fun h => h.holds_source⟩

/-! ### Targets -/

theorem loadManifest_under :
    s.loadManifest fs (s.project.sourceDir.under names) = s.project.manifestOf fs names := rfl

section Named

variable (h : ∀ name ∈ names, Path.isPlain name = true)
include h

theorem targetName_dirText :
    s.targetName (Path.dirText names) manifest =
      manifest.executable.getD (s.project.nameOf names) := by
  rw [targetName, Target.flattenedName_dirText h, Project.nameOf]

/-- The owner that a scan finds for a runnable is what the directory above it passes
on. -/
theorem owns_of_ownerOf {owner : Owner} (hne : names ≠ [])
    (howner : s.ownerOf fs (Path.dirText names) = .ok owner) :
    s.project.Owns fs names.dropLast owner := by
  have habove : ∀ name ∈ names.dropLast, Path.isPlain name = true :=
    fun name hm => h name (List.dropLast_subset names hm)
  unfold ownerOf at howner
  dsimp only at howner
  rw [Target.parentDir_dirText h hne, Path.descend_dirText habove, loadManifest_under] at howner
  cases hload : s.project.manifestOf fs names.dropLast with
  | error fault => simp [hload] at howner
  | ok manifest =>
    simp only [hload] at howner
    obtain rfl := Except.ok.inj howner
    exact ⟨rfl, manifest, hload, targetName_dirText habove, rfl⟩

/-- The owner of a runnable is missing where the manifest above cannot be loaded. -/
theorem ownerOf_eq_error_iff {fault : Fault} (hne : names ≠ []) :
    s.ownerOf fs (Path.dirText names) = .error fault ↔
      s.project.manifestOf fs names.dropLast = .error fault := by
  have habove : ∀ name ∈ names.dropLast, Path.isPlain name = true :=
    fun name hm => h name (List.dropLast_subset names hm)
  unfold ownerOf
  dsimp only
  rw [Target.parentDir_dirText h hne, Path.descend_dirText habove, loadManifest_under]
  cases s.project.manifestOf fs names.dropLast <;> simp

/-- A directory makes no candidate where its own manifest cannot be loaded or, for a
runnable, the one above. -/
theorem candidateOf_eq_error_iff {files : Listing} {fault : Fault}
    (hroot : s.project.sourceDir.text ≠ "") :
    s.candidateOf fs (s.project.sourceDir.under names) files = .error fault ↔
      s.project.manifestOf fs names = .error fault ∨
        ∃ manifest, s.project.manifestOf fs names = .ok manifest ∧ manifest.executable = none ∧
          (names.getLast? = some s.project.settings.scan.testName ∨
            names.getLast? = some s.project.settings.scan.scriptName) ∧
          s.project.manifestOf fs names.dropLast = .error fault := by
  unfold candidateOf
  rw [loadManifest_under, textOf_under h hroot]
  cases hload : s.project.manifestOf fs names with
  | error e => simp
  | ok manifest =>
    dsimp only
    have hrunnable : (Target.classify s.runnableNames (Path.dirText names) manifest).isRunnable =
        true ↔ manifest.executable = none ∧
          (names.getLast? = some s.project.settings.scan.testName ∨
            names.getLast? = some s.project.settings.scan.scriptName) :=
      Target.isRunnable_classify_dirText_iff h
    by_cases hkind :
        (Target.classify s.runnableNames (Path.dirText names) manifest).isRunnable = true
    · obtain ⟨hexe, hlast⟩ := hrunnable.mp hkind
      have hne : names ≠ [] := by
        rintro rfl
        simp at hlast
      rw [if_pos hkind]
      simp only [reduceCtorEq, Except.ok.injEq, exists_eq_left', hexe, hlast, true_and, false_or,
        ← ownerOf_eq_error_iff h hne]
      cases s.ownerOf fs (Path.dirText names) <;> simp [Except.map]
    · rw [if_neg hkind]
      simp only [reduceCtorEq, Except.ok.injEq, exists_eq_left', false_or, false_iff]
      rintro ⟨hexe, hlast, -⟩
      exact hkind (hrunnable.mpr ⟨hexe, hlast⟩)

end Named

/-- All that the candidate of a directory is made of. -/
theorem candidateOf_eq_ok {dir : Path} {files : Listing} {c : Candidate}
    (h : s.candidateOf fs dir files = .ok c) :
    ∃ manifest owner, s.loadManifest fs dir = .ok manifest ∧
      c = ⟨s.textOf dir, s.targetName (s.textOf dir) manifest,
        Target.classify s.runnableNames (s.textOf dir) manifest, files, manifest, owner⟩ ∧
      (c.kind.isRunnable = true → ∃ o, s.ownerOf fs (s.textOf dir) = .ok o ∧ owner = some o) ∧
      (c.kind.isRunnable = false → owner = none) := by
  unfold candidateOf at h
  cases hload : s.loadManifest fs dir with
  | error fault => simp [hload] at h
  | ok manifest =>
    simp only [hload] at h
    by_cases hrun : (Target.classify s.runnableNames (s.textOf dir) manifest).isRunnable = true
    · cases howner : s.ownerOf fs (s.textOf dir) with
      | error fault =>
        simp only [hrun, howner, ↓reduceIte] at h
        contradiction
      | ok o =>
        simp only [hrun, howner, ↓reduceIte] at h
        obtain rfl := Except.ok.inj h
        exact ⟨manifest, some o, rfl, rfl, fun _ => ⟨o, rfl, rfl⟩, by simp [hrun]⟩
    · simp only [hrun, Bool.false_eq_true, ↓reduceIte] at h
      obtain rfl := Except.ok.inj h
      exact ⟨manifest, none, rfl, rfl, by simp [hrun], fun _ => rfl⟩

/-- What a scan makes of a directory is what the directory describes: name, kind,
files, manifest and owner. -/
theorem describes_of_candidateOf {files : Listing} {c : Candidate} (id : Identifier)
    (h : ∀ name ∈ names, Path.isPlain name = true) (hroot : s.project.sourceDir.text ≠ "")
    (hc : s.candidateOf fs (s.project.sourceDir.under names) files = .ok c) :
    s.project.Describes fs names (c.withId id) := by
  obtain ⟨manifest, owner, hload, rfl, hrunnable, hother⟩ := candidateOf_eq_ok hc
  rw [textOf_under h hroot] at hrunnable hother ⊢
  refine ⟨rfl, hload, ?_⟩
  simp only [Candidate.withId, targetName_dirText h, Target.classify_dirText h, runnableNames]
    at hrunnable hother ⊢
  have hne : ∀ {last : String}, names.getLast? = some last → names ≠ [] := by
    rintro last hlast rfl
    contradiction
  cases hexe : manifest.executable with
  | some name =>
    simp only [hexe, Option.isSome_some, ↓reduceIte] at hother ⊢
    rw [hother rfl]
    exact .executable hexe
  | none =>
    simp only [hexe, Option.isSome_none, Bool.false_eq_true, ↓reduceIte] at hrunnable hother ⊢
    by_cases htest : names.getLast? = some s.project.settings.scan.testName
    · rw [if_pos htest] at hrunnable ⊢
      obtain ⟨o, ho, rfl⟩ := hrunnable rfl
      exact .test hexe htest (owns_of_ownerOf h (hne htest) ho)
    · rw [if_neg htest] at hrunnable hother ⊢
      by_cases hscript : names.getLast? = some s.project.settings.scan.scriptName
      · rw [if_pos hscript] at hrunnable ⊢
        obtain ⟨o, ho, rfl⟩ := hrunnable rfl
        exact .script hexe htest hscript (owns_of_ownerOf h (hne hscript) ho)
      · rw [if_neg hscript] at hother ⊢
        rw [hother rfl]
        exact .library hexe htest hscript

end Scanner

end SolutionTree
