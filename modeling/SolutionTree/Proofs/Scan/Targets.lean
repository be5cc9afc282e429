import SolutionTree.Proofs.Scan.Rule
import SolutionTree.Proofs.Scan.Survey

/-!
The targets of a scan.

A scan that succeeds has looked at every directory that it keeps (`Surveyed`). The
candidates it came by are those of the directories that make targets, one of each
(`Surveyed.exists_candidate`, `Surveyed.makesTarget_of_mem`), and so are the targets
of the catalog (`targets_of_scan`).
-/

namespace SolutionTree

/-- What a scan that goes well has come by: exclude patterns, the source tree with
no path in it that is refused, and the candidates of its directories. -/
structure Scanner.Surveyed (s : Scanner) (fs : FileSystem) (tree : FileTree)
    (candidates : List Candidate) : Prop where
  patterns : parseExcludes s.project.settings.scan.exclude = .ok s.excludes
  node : fs.node? s.project.sourceDir = .ok tree
  fits : ∀ dir ∈ walk s.keeps s.project.sourceDir tree, FileSystem.refusal? dir = none
  found : Survey.candidates ⟨(walk s.keeps s.project.sourceDir tree).map (s.inspect fs)⟩ =
    .ok candidates

namespace Scanner

variable {s : Scanner} {fs : FileSystem} {tree : FileTree} {names : List String}

/-! ### Single directories -/

/-- A scan lists the directories of the walk, and no path among them is refused. -/
theorem directories_eq_ok {dirs : List Path} (htree : fs.node? s.project.sourceDir = .ok tree)
    (h : s.directories fs = .ok dirs) :
    dirs = walk s.keeps s.project.sourceDir tree ∧
      ∀ dir ∈ dirs, FileSystem.refusal? dir = none := by
  simp only [directories, htree] at h
  split at h
  · contradiction
  next hnone =>
    obtain rfl := Except.ok.inj h
    refine ⟨rfl, fun dir hdir => ?_⟩
    simpa using List.findSome?_eq_none_iff.mp hnone dir hdir

/-- A walk is listed if no path in it is refused. -/
theorem directories_of_fits (htree : fs.node? s.project.sourceDir = .ok tree)
    (hfits : ∀ dir ∈ walk s.keeps s.project.sourceDir tree, FileSystem.refusal? dir = none) :
    s.directories fs = .ok (walk s.keeps s.project.sourceDir tree) := by
  have hnone : (walk s.keeps s.project.sourceDir tree).findSome?
      (fun dir => (FileSystem.refusal? dir).map (stopped dir)) = none := by
    rw [List.findSome?_eq_none_iff]
    intro dir hdir
    rw [hfits dir hdir, Option.map_none]
  simp only [directories, htree, hnone]

/-- What is found in a directory, by what it holds. -/
theorem inspect_eq_ok {dir : Path} {finding : Finding} (h : s.inspect fs dir = .ok finding) :
    ∃ files, Listing.read fs s.project.settings.scan.extensions dir = .ok files ∧
      ((files.hasSources = true ∧ ∃ c, s.candidateOf fs dir files = .ok c ∧ finding = .target c) ∨
        (files.hasSources = false ∧ finding = .skipped (s.textOf dir))) := by
  unfold inspect at h
  cases hread : Listing.read fs s.project.settings.scan.extensions dir with
  | error e => simp [hread] at h
  | ok files =>
    simp only [hread] at h
    refine ⟨files, rfl, ?_⟩
    by_cases hsources : files.hasSources = true
    · rw [if_pos hsources] at h
      cases hcandidate : s.candidateOf fs dir files with
      | error fault =>
        rw [hcandidate] at h
        contradiction
      | ok c =>
        rw [hcandidate] at h
        exact .inl ⟨hsources, c, rfl, (Except.ok.inj h).symm⟩
    · rw [if_neg hsources] at h
      exact .inr ⟨by simpa using hsources, (Except.ok.inj h).symm⟩

/-! ### The source tree -/

namespace Surveyed

variable {candidates : List Candidate} {c : Candidate}

theorem root_ne (hs : s.Surveyed fs tree candidates) : s.project.sourceDir.text ≠ "" :=
  FileSystem.text_ne_of_refusal? (FileSystem.node?_eq_ok_iff.mp hs.node).1

/-- The directory of a target is in the tree, and the walk comes to it. -/
theorem under_mem_walk (hs : s.Surveyed fs tree candidates) (hwf : tree.WellFormed)
    {entries : List (String × FileTree)} (hfind : tree.find? names = some (.dir entries))
    (hkept : ∀ above, above ≠ [] → above <+: names → ¬ s.project.Excludes above) :
    s.project.sourceDir.under names ∈ walk s.keeps s.project.sourceDir tree := by
  have hplain := hwf.isPlain_of_find? hfind
  have hkeeps := (keepsTo_keeps_iff hplain hs.patterns hs.root_ne).mpr hkept
  exact (mem_walk_iff hwf).mpr ⟨names, entries, hfind, hkeeps, rfl⟩

/-- What is read of a directory on the walk is the listing of the entries that stand
there in the tree. -/
theorem read_under (hs : s.Surveyed fs tree candidates) (hwf : tree.WellFormed)
    {entries : List (String × FileTree)} (hfind : tree.find? names = some (.dir entries))
    (hmem : s.project.sourceDir.under names ∈ walk s.keeps s.project.sourceDir tree) :
    Listing.read fs s.project.settings.scan.extensions (s.project.sourceDir.under names) =
      .ok (Listing.ofEntries s.project.settings.scan.extensions
        (s.project.sourceDir.under names) entries) := by
  have hplain := hwf.isPlain_of_find? hfind
  exact Listing.read_of_node? (FileSystem.node?_under hplain hs.node hfind (hs.fits _ hmem))

/-- Each directory that makes a target has been found to. -/
theorem exists_candidate (hs : s.Surveyed fs tree candidates) (hwf : tree.WellFormed)
    (h : s.project.MakesTarget tree names) :
    ∃ c ∈ candidates, s.inspect fs (s.project.sourceDir.under names) = .ok (.target c) := by
  obtain ⟨entries, hfind⟩ := h.exists_dir
  have hmem := hs.under_mem_walk hwf hfind h.kept
  have hkeeps := (keepsTo_keeps_iff (h.isPlain hwf) hs.patterns hs.root_ne).mpr h.kept
  obtain ⟨finding, hfinding⟩ :=
    Survey.exists_ok_of_candidates hs.found (List.mem_map_of_mem hmem)
  obtain ⟨files, hread, ⟨-, c, -, rfl⟩ | ⟨hnone, -⟩⟩ := inspect_eq_ok hfinding
  · refine ⟨c, (Survey.mem_candidates_iff hs.found).mpr ?_, hfinding⟩
    exact List.mem_map.mpr ⟨_, hmem, hfinding⟩
  · obtain rfl := Except.ok.inj (hread.symm.trans (hs.read_under hwf hfind hmem))
    have hsources := (hasSources_iff_makesTarget hs.patterns hs.root_ne hwf hfind hkeeps).mpr h
    rw [hnone] at hsources
    contradiction

/-- Each candidate is that of a directory that makes a target. -/
theorem makesTarget_of_mem (hs : s.Surveyed fs tree candidates) (hwf : tree.WellFormed)
    (hc : c ∈ candidates) :
    ∃ names, s.project.MakesTarget tree names ∧
      s.inspect fs (s.project.sourceDir.under names) = .ok (.target c) := by
  obtain ⟨dir, hmem, hinspect⟩ := List.mem_map.mp ((Survey.mem_candidates_iff hs.found).mp hc)
  obtain ⟨names, entries, hfind, hkeeps, rfl⟩ := (mem_walk_iff hwf).mp hmem
  obtain ⟨files, hread, ⟨hsources, -⟩ | ⟨-, hskipped⟩⟩ := inspect_eq_ok hinspect
  · obtain rfl := Except.ok.inj (hread.symm.trans (hs.read_under hwf hfind hmem))
    exact ⟨names, (hasSources_iff_makesTarget hs.patterns hs.root_ne hwf hfind hkeeps).mp hsources,
      hinspect⟩
  · contradiction

/-- What is found in a directory describes its target, whatever identifier that
gets. -/
theorem describes_of_inspect (hs : s.Surveyed fs tree candidates) (hwf : tree.WellFormed)
    (hnames : s.project.MakesTarget tree names) (id : Identifier)
    (h : s.inspect fs (s.project.sourceDir.under names) = .ok (.target c)) :
    s.project.Describes fs names (c.withId id) := by
  obtain ⟨files, -, ⟨-, c', hcandidate, heq⟩ | ⟨-, hskipped⟩⟩ := inspect_eq_ok h
  · obtain rfl := Finding.target.inj heq
    exact describes_of_candidateOf id (hnames.isPlain hwf) hs.root_ne hcandidate
  · contradiction

end Surveyed

end Scanner

namespace Project

variable {project : Project} {fs : FileSystem} {tree : FileTree} {catalog : Catalog}
  {supply supply' : Identifier.Supply}

/-- A scan succeeds when all directories could be looked at and their candidates be
enrolled. -/
theorem scan_eq_ok_iff (htree : fs.node? project.sourceDir = .ok tree) :
    project.scan fs supply = (.ok catalog, supply') ↔
      ∃ (s : Scanner) (candidates : List Candidate), s.project = project ∧
        s.Surveyed fs tree candidates ∧
          enroll candidates .empty supply = (.ok catalog, supply') := by
  rw [scan_eq_ok_iff_enroll]
  constructor
  · rintro ⟨v, candidates, hsurvey, hfound, henroll⟩
    unfold survey Scanner.ofProject at hsurvey
    cases hpatterns : parseExcludes project.settings.scan.exclude with
    | error fault => simp [hpatterns] at hsurvey
    | ok patterns =>
      simp only [hpatterns, Scanner.survey] at hsurvey
      cases hdirs : Scanner.directories ⟨project, patterns⟩ fs with
      | error fault => simp [hdirs, Except.map] at hsurvey
      | ok dirs =>
        obtain ⟨rfl, hfits⟩ := Scanner.directories_eq_ok htree hdirs
        rw [hdirs] at hsurvey
        obtain rfl := Except.ok.inj hsurvey
        exact ⟨⟨project, patterns⟩, candidates, rfl, ⟨hpatterns, htree, hfits, hfound⟩, henroll⟩
  · rintro ⟨⟨project, patterns⟩, candidates, rfl, hs, henroll⟩
    refine ⟨_, candidates, ?_, hs.found, henroll⟩
    have hpatterns : parseExcludes project.settings.scan.exclude = .ok patterns := hs.patterns
    simp only [survey, Scanner.ofProject, hpatterns, Scanner.survey,
      Scanner.directories_of_fits hs.node hs.fits, Except.map]

/-- What a scan that succeeds comes of: patterns, a tree whose paths fit,
candidates, and a catalog that takes them all. -/
theorem scan_eq_ok (htree : fs.node? project.sourceDir = .ok tree)
    (h : project.scan fs supply = (.ok catalog, supply')) :
    ∃ (s : Scanner) (candidates : List Candidate), s.project = project ∧
      s.Surveyed fs tree candidates ∧
      catalog.targets =
        List.zipWith Candidate.withId candidates (supply.take candidates.length).1 ∧
      supply' = (supply.take candidates.length).2 := by
  obtain ⟨s, candidates, hproject, hs, henroll⟩ := (scan_eq_ok_iff htree).mp h
  obtain ⟨htargets, hsupply⟩ := enroll_eq_ok henroll
  rw [Catalog.targets_empty, List.nil_append] at htargets
  exact ⟨s, candidates, hproject, hs, htargets, hsupply⟩

/-- Every target is that of a directory that makes one, and as the directory
describes it. -/
theorem describes_of_scan (htree : fs.node? project.sourceDir = .ok tree) (hwf : tree.WellFormed)
    (h : project.scan fs supply = (.ok catalog, supply')) {t : Target} (ht : t ∈ catalog.targets) :
    ∃ names, project.MakesTarget tree names ∧ project.Describes fs names t := by
  obtain ⟨s, candidates, rfl, hs, htargets, -⟩ := scan_eq_ok htree h
  rw [htargets] at ht
  obtain ⟨c, hc, id, rfl⟩ := exists_candidate_of_mem ht
  obtain ⟨names, hnames, hinspect⟩ := hs.makesTarget_of_mem hwf hc
  exact ⟨names, hnames, hs.describes_of_inspect hwf hnames id hinspect⟩

/-- **Every directory that makes a target makes one, and no other directory does.**
The target is as its directory describes it. -/
theorem targets_of_scan (htree : fs.node? project.sourceDir = .ok tree) (hwf : tree.WellFormed)
    (h : project.scan fs supply = (.ok catalog, supply')) :
    (∀ names, project.MakesTarget tree names →
      ∃! t, t ∈ catalog.targets ∧ t.relativeDir = Path.dirText names) ∧
    ∀ t ∈ catalog.targets, ∃ names, project.MakesTarget tree names ∧
      project.Describes fs names t := by
  obtain ⟨s, candidates, rfl, hs, htargets, -⟩ := scan_eq_ok htree h
  have horigin : ∀ t ∈ catalog.targets, ∃ names c id, s.project.MakesTarget tree names ∧
      s.inspect fs (s.project.sourceDir.under names) = .ok (.target c) ∧ t = c.withId id := by
    intro t ht
    rw [htargets] at ht
    obtain ⟨c, hc, id, rfl⟩ := exists_candidate_of_mem ht
    obtain ⟨names, hnames, hinspect⟩ := hs.makesTarget_of_mem hwf hc
    exact ⟨names, c, id, hnames, hinspect, rfl⟩
  constructor
  · intro names hnames
    obtain ⟨c, hc, hinspect⟩ := hs.exists_candidate hwf hnames
    obtain ⟨id, hmem⟩ : ∃ id, c.withId id ∈ catalog.targets := by
      rw [htargets]
      exact exists_target_of_mem hc
    have hdir := (hs.describes_of_inspect hwf hnames id hinspect).relativeDir
    refine ⟨c.withId id, ⟨hmem, hdir⟩, ?_⟩
    rintro t ⟨ht, htdir⟩
    obtain ⟨names', c', id', hnames', hinspect', rfl⟩ := horigin t ht
    obtain rfl : names' = names := by
      have hdir' := (hs.describes_of_inspect hwf hnames' id' hinspect').relativeDir
      exact Path.dirText_injective (hnames'.isPlain hwf) (hnames.isPlain hwf)
        (hdir'.symm.trans htdir)
    obtain rfl : c = c' := Finding.target.inj (Except.ok.inj (hinspect.symm.trans hinspect'))
    -- One candidate and two targets: they share a name, which a catalog has only once.
    exact List.inj_on_of_nodup_map catalog.distinct ht hmem rfl
  · intro t ht
    exact describes_of_scan htree hwf h ht

/-- **The files of a target** are those of its directory, listed under the path that
the walk came to. -/
theorem files_of_scan (htree : fs.node? project.sourceDir = .ok tree) (hwf : tree.WellFormed)
    (h : project.scan fs supply = (.ok catalog, supply')) {t : Target} (ht : t ∈ catalog.targets) :
    ∃ names entries, tree.find? names = some (.dir entries) ∧
      t.relativeDir = Path.dirText names ∧
      t.files = .ofEntries project.settings.scan.extensions (project.sourceDir.under names)
        entries := by
  obtain ⟨s, candidates, rfl, hs, htargets, -⟩ := scan_eq_ok htree h
  rw [htargets] at ht
  obtain ⟨c, hc, id, rfl⟩ := exists_candidate_of_mem ht
  obtain ⟨dir, hmem, hinspect⟩ := List.mem_map.mp ((Survey.mem_candidates_iff hs.found).mp hc)
  obtain ⟨names, entries, hfind, -, rfl⟩ := (mem_walk_iff hwf).mp hmem
  refine ⟨names, entries, hfind, ?_⟩
  obtain ⟨files, hread, ⟨-, c', hcandidate, heq⟩ | ⟨-, hskipped⟩⟩ := Scanner.inspect_eq_ok hinspect
  · obtain rfl := Finding.target.inj heq
    obtain rfl := Except.ok.inj (hread.symm.trans (hs.read_under hwf hfind hmem))
    obtain ⟨manifest, owner, -, rfl, -, -⟩ := Scanner.candidateOf_eq_ok hcandidate
    exact ⟨Scanner.textOf_under (hwf.isPlain_of_find? hfind) hs.root_ne, rfl⟩
  · contradiction

/-! ### A test alone -/

/-- A source tree whose only source is that of a test, in a directory without
sources. -/
def loneTestTree : FileTree :=
  .dir [("lib", .dir [("test", .dir [("unit.CPP", .file .empty)])])]

def loneTestFiles : FileSystem where
  tree := .dir [("src", loneTestTree)]

def loneTest : Project where
  root := ⟨"/"⟩
  sourceDir := ⟨"/src"⟩
  outputDir := ⟨"/bin"⟩
  intermediateDir := ⟨"/out"⟩
  settings := { scan := { exclude := ["old*"] } }

theorem wellFormed_loneTestTree : loneTestTree.WellFormed := by
  have hfile : (FileTree.dir [("unit.CPP", .file .empty)]).WellFormed :=
    .dir (by decide) (by decide) (by simpa using .file .empty)
  have htest : (FileTree.dir [("test", .dir [("unit.CPP", .file .empty)])]).WellFormed :=
    .dir (by decide) (by decide) (by simpa using hfile)
  exact .dir (by decide) (by decide) (by simpa using htest)

theorem makesTarget_loneTest : loneTest.MakesTarget loneTestTree ["lib", "test"] where
  holds_source := ⟨"unit.CPP", .empty, rfl, "unit", "CPP", rfl, by decide, by decide,
    "cpp", by decide, by decide⟩
  kept := by
    have hpatterns : parseExcludes loneTest.settings.scan.exclude =
        .ok [⟨[.char 'o', .char 'l', .char 'd', .anyText]⟩] := by cbv
    have hroot : loneTest.sourceDir.text ≠ "" := by decide
    refine (Scanner.keepsTo_keeps_iff (s := ⟨loneTest, _⟩) (by decide) hpatterns hroot).mp ?_
    exact keepsTo_cons_iff.mpr
      ⟨by decide +kernel, keepsTo_cons_iff.mpr ⟨by decide +kernel, keepsTo_nil⟩⟩

theorem scan_loneTest :
    ∃ catalog supply', loneTest.scan loneTestFiles ⟨.nil⟩ = (.ok catalog, supply') := by
  have hok : (loneTest.scan loneTestFiles ⟨.nil⟩).1.isOk = true := by decide +kernel
  cases h : loneTest.scan loneTestFiles ⟨.nil⟩ with
  | mk result supply' =>
    rw [h] at hok
    cases result with
    | error fault => contradiction
    | ok catalog => exact ⟨catalog, supply', rfl⟩

/-- The test makes the only target, though the directory above it makes none. -/
theorem targets_of_scan_loneTest :
    ∃ catalog supply', loneTest.scan loneTestFiles ⟨.nil⟩ = (.ok catalog, supply') ∧
      ∃! t, t ∈ catalog.targets ∧ t.relativeDir = Path.dirText ["lib", "test"] := by
  obtain ⟨catalog, supply', h⟩ := scan_loneTest
  have htree : loneTestFiles.node? loneTest.sourceDir = .ok loneTestTree := by rfl
  exact ⟨catalog, supply', h,
    (targets_of_scan htree wellFormed_loneTestTree h).1 _ makesTarget_loneTest⟩

end Project

end SolutionTree
