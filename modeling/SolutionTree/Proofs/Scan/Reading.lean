import SolutionTree.Proofs.Scan.Targets

/-!
What a scan reads.

Two scans come to the same, catalog or fault, when they walk the same directories
and find the same in each of them (`survey_congr`). What is found in a directory is
told by its listing and, if that holds a source, by its manifest and, for a
runnable, by that of the directory above (`inspect_congr`); nothing else of a file
system is looked at. `ReadsManifest` says of which directories these manifests are,
and `survey_eq_of_readsManifest` that all others may say what they like.
-/

namespace SolutionTree

variable {fs fs' : FileSystem}

theorem Manifest.load_congr {dir : Path} {name : String} {base : IncludeBase}
    (h : fs.readText (dir.child name) = fs'.readText (dir.child name)) :
    Manifest.load fs dir name base = Manifest.load fs' dir name base := by
  unfold load read?
  dsimp only
  rw [h]

namespace Scanner

variable {s s' : Scanner}

/-! ### Single directories -/

theorem ownerOf_congr {relativeDir : String}
    (h : s.loadManifest fs (s.project.sourceDir.descend (Target.parentDir relativeDir)) =
      s.loadManifest fs' (s.project.sourceDir.descend (Target.parentDir relativeDir))) :
    s.ownerOf fs relativeDir = s.ownerOf fs' relativeDir := by
  unfold ownerOf
  dsimp only
  rw [h]

/-- What is found in a directory is told by two manifests at most: its own, and for
a test or a script that of the directory above. -/
theorem candidateOf_congr {dir : Path} {files : Listing}
    (hown : s.loadManifest fs dir = s.loadManifest fs' dir)
    (howner : ∀ manifest, s.loadManifest fs dir = .ok manifest →
      (Target.classify s.runnableNames (s.textOf dir) manifest).isRunnable = true →
        s.ownerOf fs (s.textOf dir) = s.ownerOf fs' (s.textOf dir)) :
    s.candidateOf fs dir files = s.candidateOf fs' dir files := by
  unfold candidateOf
  rw [← hown]
  cases hload : s.loadManifest fs dir with
  | error fault => rfl
  | ok manifest =>
    dsimp only
    cases hrunnable : (Target.classify s.runnableNames (s.textOf dir) manifest).isRunnable with
    | false => rfl
    | true => simp only [howner manifest hload hrunnable]

/-- A directory whose listing makes it a target. -/
def HoldsSources (s : Scanner) (fs : FileSystem) (dir : Path) : Prop :=
  ∃ files, Listing.read fs s.project.settings.scan.extensions dir = .ok files ∧
    files.hasSources = true

/-- A directory that holds sources and whose manifest leaves it a test or a script.
-/
def HoldsRunnable (s : Scanner) (fs : FileSystem) (dir : Path) : Prop :=
  s.HoldsSources fs dir ∧ ∃ manifest, s.loadManifest fs dir = .ok manifest ∧
    (Target.classify s.runnableNames (s.textOf dir) manifest).isRunnable = true

/-- **What is found in a directory** is the same in two file systems that list it
alike and have the same manifests where these are read. -/
theorem inspect_congr {dir : Path}
    (hread : Listing.read fs s.project.settings.scan.extensions dir =
      Listing.read fs' s.project.settings.scan.extensions dir)
    (hown : s.HoldsSources fs dir → s.loadManifest fs dir = s.loadManifest fs' dir)
    (howner : s.HoldsRunnable fs dir → s.ownerOf fs (s.textOf dir) = s.ownerOf fs' (s.textOf dir)) :
    s.inspect fs dir = s.inspect fs' dir := by
  unfold inspect
  rw [← hread]
  cases hlisted : Listing.read fs s.project.settings.scan.extensions dir with
  | error e => rfl
  | ok files =>
    dsimp only
    cases hsources : files.hasSources with
    | false => rfl
    | true =>
      have hholds : s.HoldsSources fs dir := ⟨files, hlisted, hsources⟩
      have hcandidate : s.candidateOf fs dir files = s.candidateOf fs' dir files :=
        candidateOf_congr (hown hholds) fun manifest hload hrunnable =>
          howner ⟨hholds, manifest, hload, hrunnable⟩
      rw [hcandidate]

/-! ### Whole scans -/

/-- Surveys are the same if the same directories are walked and the same is found in
each. -/
theorem survey_congr (hdirs : s.directories fs = s'.directories fs')
    (hinspect : ∀ dirs, s.directories fs = .ok dirs →
      ∀ dir ∈ dirs, s.inspect fs dir = s'.inspect fs' dir) :
    s.survey fs = s'.survey fs' := by
  rw [survey, survey, ← hdirs]
  cases h : s.directories fs with
  | error fault => simp only [Except.map]
  | ok dirs =>
    have hfindings : dirs.map (s.inspect fs) = dirs.map (s'.inspect fs') :=
      List.map_congr_left (hinspect dirs h)
    simp only [Except.map, hfindings]

/-- The directories that are walked are told by the walk alone. -/
theorem directories_of_walk_eq {tree tree' : FileTree}
    (hnode : fs.node? s.project.sourceDir = .ok tree)
    (hnode' : fs'.node? s'.project.sourceDir = .ok tree')
    (hwalk : walk s.keeps s.project.sourceDir tree = walk s'.keeps s'.project.sourceDir tree') :
    s.directories fs = s'.directories fs' := by
  simp only [directories, hnode, hnode', hwalk]

end Scanner

namespace Project

variable {project project' : Project} {patterns : List Pattern}

/-- With patterns that can be compiled, a survey is that of the scanner which has
them. -/
theorem survey_of_patterns (h : parseExcludes project.settings.scan.exclude = .ok patterns)
    (fs : FileSystem) : project.survey fs = Scanner.survey ⟨project, patterns⟩ fs := by
  rw [survey, Scanner.ofProject, h]

/-- A walk in which no path is refused makes a survey of its directories. -/
theorem survey_of_walk {tree : FileTree} {dirs : List Path}
    (hpatterns : parseExcludes project.settings.scan.exclude = .ok patterns)
    (htree : fs.node? project.sourceDir = .ok tree)
    (hwalk : walk (Scanner.keeps ⟨project, patterns⟩) project.sourceDir tree = dirs)
    (hfits : ∀ dir ∈ dirs, FileSystem.refusal? dir = none) :
    project.survey fs = .ok ⟨dirs.map (Scanner.inspect ⟨project, patterns⟩ fs)⟩ := by
  subst hwalk
  have hdirs := Scanner.directories_of_fits (s := ⟨project, patterns⟩) htree hfits
  rw [survey_of_patterns hpatterns, Scanner.survey, hdirs]
  rfl

theorem scan_congr (h : project.survey fs = project'.survey fs') (supply : Identifier.Supply) :
    project.scan fs supply = project'.scan fs' supply := by
  rw [scan, scan, h]

/-! ### Manifests that count -/

/-- The directories of a source tree whose manifests are read: those that make
targets, and those that a test or a script stands in. -/
inductive ReadsManifest (project : Project) (fs : FileSystem) (tree : FileTree) :
    List String → Prop where
  | own {names : List String} :
      project.MakesTarget tree names → ReadsManifest project fs tree names
  | owner {names : List String} {manifest : Manifest} :
      project.MakesTarget tree names → project.manifestOf fs names = .ok manifest →
      manifest.executable = none →
      (names.getLast? = some project.settings.scan.testName ∨
        names.getLast? = some project.settings.scan.scriptName) →
      ReadsManifest project fs tree names.dropLast

end Project

namespace Scanner

variable {s s' : Scanner} {tree tree' : FileTree} {names : List String}
  {entries : List (String × FileTree)}

/-- What is found in a directory of a source tree hangs on manifests that count:
that of the directory if it holds sources, and that of the one above for a runnable.
-/
theorem inspect_under_congr
    (hpatterns : parseExcludes s.project.settings.scan.exclude = .ok s.excludes)
    (hnode : fs.node? s.project.sourceDir = .ok tree) (hwf : tree.WellFormed)
    (hfind : tree.find? names = some (.dir entries))
    (hkeeps : KeepsTo s.keeps s.project.sourceDir names)
    (hfits : FileSystem.refusal? (s.project.sourceDir.under names) = none)
    (hread : Listing.read fs s.project.settings.scan.extensions (s.project.sourceDir.under names) =
      Listing.read fs' s.project.settings.scan.extensions (s.project.sourceDir.under names))
    (hmanifests : ∀ place, s.project.ReadsManifest fs tree place →
      s.project.manifestOf fs place = s.project.manifestOf fs' place) :
    s.inspect fs (s.project.sourceDir.under names) =
      s.inspect fs' (s.project.sourceDir.under names) := by
  have hplain := hwf.isPlain_of_find? hfind
  have hroot := FileSystem.text_ne_of_refusal? (FileSystem.node?_eq_ok_iff.mp hnode).1
  have htext := textOf_under hplain hroot
  have hmakes : s.HoldsSources fs (s.project.sourceDir.under names) →
      s.project.MakesTarget tree names := by
    rintro ⟨files, hfiles, hsources⟩
    rw [Listing.read_of_node? (FileSystem.node?_under hplain hnode hfind hfits)] at hfiles
    obtain rfl := Except.ok.inj hfiles
    exact (hasSources_iff_makesTarget hpatterns hroot hwf hfind hkeeps).mp hsources
  refine inspect_congr hread (fun hholds => hmanifests names (.own (hmakes hholds))) ?_
  rintro ⟨hholds, manifest, hload, hrunnable⟩
  rw [htext, Target.isRunnable_classify_dirText_iff hplain] at hrunnable
  obtain ⟨hexe, hlast⟩ := hrunnable
  have hne : names ≠ [] := by
    rintro rfl
    simp at hlast
  have habove : ∀ name ∈ names.dropLast, Path.isPlain name = true :=
    fun name hm => hplain name (List.dropLast_subset names hm)
  rw [htext]
  apply ownerOf_congr
  rw [Target.parentDir_dirText hplain hne, Path.descend_dirText habove]
  exact hmanifests names.dropLast (.owner (hmakes hholds) hload hexe hlast)

/-- Two source trees are surveyed alike if the walks of them come to the same
directories, and the same is found in each. -/
theorem survey_eq_of_walk_eq (hnode : fs.node? s.project.sourceDir = .ok tree)
    (hwf : tree.WellFormed)
    (hnode' : fs'.node? s'.project.sourceDir = .ok tree')
    (hwalk : walk s.keeps s.project.sourceDir tree = walk s'.keeps s'.project.sourceDir tree')
    (hinspect : ∀ names entries, tree.find? names = some (.dir entries) →
      KeepsTo s.keeps s.project.sourceDir names →
      FileSystem.refusal? (s.project.sourceDir.under names) = none →
      s.inspect fs (s.project.sourceDir.under names) =
        s'.inspect fs' (s.project.sourceDir.under names)) :
    s.survey fs = s'.survey fs' := by
  refine survey_congr (directories_of_walk_eq hnode hnode' hwalk) ?_
  intro dirs hdirs dir hmem
  obtain ⟨rfl, hfits⟩ := directories_eq_ok hnode hdirs
  obtain ⟨names, entries, hfind, hkeeps, rfl⟩ := (mem_walk_iff hwf).mp hmem
  exact hinspect names entries hfind hkeeps (hfits _ hmem)

/-- **Two source trees are surveyed alike** if the walks of them come to the same
directories, which are listed alike, and the manifests that count say the same. -/
theorem survey_eq_of_readsManifest
    (hpatterns : parseExcludes s.project.settings.scan.exclude = .ok s.excludes)
    (hnode : fs.node? s.project.sourceDir = .ok tree) (hwf : tree.WellFormed)
    (hnode' : fs'.node? s'.project.sourceDir = .ok tree') (hsame : s'.inspect = s.inspect)
    (hwalk : walk s.keeps s.project.sourceDir tree = walk s'.keeps s'.project.sourceDir tree')
    (hread : ∀ names entries, tree.find? names = some (.dir entries) →
      KeepsTo s.keeps s.project.sourceDir names →
      FileSystem.refusal? (s.project.sourceDir.under names) = none →
      Listing.read fs s.project.settings.scan.extensions (s.project.sourceDir.under names) =
        Listing.read fs' s.project.settings.scan.extensions (s.project.sourceDir.under names))
    (hmanifests : ∀ names, s.project.ReadsManifest fs tree names →
      s.project.manifestOf fs names = s.project.manifestOf fs' names) :
    s.survey fs = s'.survey fs' := by
  refine survey_eq_of_walk_eq hnode hwf hnode' hwalk fun names entries hfind hkeeps hfits => ?_
  rw [hsame]
  exact inspect_under_congr hpatterns hnode hwf hfind hkeeps hfits
    (hread names entries hfind hkeeps hfits) hmanifests

end Scanner

end SolutionTree
