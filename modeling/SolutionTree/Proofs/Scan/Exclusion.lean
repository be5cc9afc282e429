import SolutionTree.Proofs.FileSystem.Under
import SolutionTree.Proofs.FileTree.Pruned
import SolutionTree.Proofs.Scan.Reading

/-!
Exclusion is deletion.

A scan that excludes directories comes to what a scan without any pattern comes to in the tree that
these directories have been removed from, with all that is in them: the same targets with the same
owners and identifiers, or the same fault (`scan_eq_scan_prune`).

* `walk_excluded` — both scans walk the same directories.
* `read_prune`, `manifestOf_prune` — the files of a directory that is left are read alike, and so is
  its manifest.

One thing tells an excluded directory from one that is not there: it may have the name that manifests
have. Where a manifest is read, it then makes the scan fail, and a missing one does not
(`not_scan_eq_scan_prune`).
-/

namespace SolutionTree

/-- Whether one of some patterns matches the directory that names lead to. -/
def excludedBy (patterns : List Pattern) (names : List String) : Bool :=
  patterns.any fun pattern => pattern.matchesText (Path.dirText names)

/-- A project without exclude patterns, and otherwise the same. -/
def Project.withoutExcludes (project : Project) : Project :=
  { project with
    settings := { project.settings with scan := { project.settings.scan with exclude := [] } } }

variable {project : Project} {patterns : List Pattern} {fs fs' : FileSystem} {tree : FileTree}
  {names : List String} {entries : List (String × FileTree)}

namespace Scanner

/-- A scanner without exclude patterns keeps all directories. -/
theorem keeps_withoutExcludes (project : Project) (dir : Path) :
    Scanner.keeps ⟨project.withoutExcludes, []⟩ dir = true := by
  simp [keeps, isExcluded]

section Root

variable (hroot : project.sourceDir.text ≠ "")
include hroot

/-- The walk enters what no exclude pattern matches. -/
theorem keeps_under (hne : names ≠ []) (h : ∀ name ∈ names, Path.isPlain name = true) :
    Scanner.keeps ⟨project, patterns⟩ (project.sourceDir.under names) =
      !excludedBy patterns names := by
  have htext : Path.dirText names ≠ "" := fun hempty =>
    hne ((Path.dirText_eq_empty_iff h).mp hempty)
  have hunder : Scanner.textOf ⟨project, patterns⟩ (project.sourceDir.under names) =
      Path.dirText names := textOf_under h hroot
  simp only [keeps, hunder, decide_eq_false htext, Bool.false_or]
  rfl

/-- **The excluded directories are walked around** as if they were not there. The
induction is over the tree, and patterns are asked for the whole text of a directory
on both sides. -/
theorem walk_excluded (hwf : tree.WellFormed) :
    walk (Scanner.keeps ⟨project, patterns⟩) project.sourceDir tree =
      walk (Scanner.keeps ⟨project.withoutExcludes, []⟩) project.sourceDir
        (tree.prune (excludedBy patterns)) :=
  (walk_prune hwf (keeps_withoutExcludes project) fun _ hne h => keeps_under hroot hne h).symm

/-- A directory that a scan keeps is left in the pruned tree. -/
theorem left_of_keepsTo (h : ∀ name ∈ names, Path.isPlain name = true)
    (hkeeps : KeepsTo (Scanner.keeps ⟨project, patterns⟩) project.sourceDir names) :
    FileTree.Left (excludedBy patterns) tree names := by
  intro above hne hpre _
  have habove := hkeeps above hne hpre
  rw [keeps_under hroot hne fun name hm => h name (hpre.subset hm)] at habove
  simpa using habove

end Root

end Scanner

/-! ### What is left of a directory -/

namespace FileTree

variable {removed : List String → Bool}

/-- A directory that is left has lost those of its entries that are removed, and no
other. -/
theorem find?_prune_dir (hwf : tree.WellFormed) (hfind : tree.find? names = some (.dir entries))
    (hleft : Left removed tree names) :
    (tree.prune removed).find? names =
      some (.dir (pruneEntries (fun below => removed (names ++ below)) entries)) :=
  (find?_prune_iff hwf).mpr ⟨_, hfind, hleft, rfl⟩

/-- What stands in a directory that is left is a file or nothing to a reader as it
was before, if it is not a directory that is removed. -/
theorem map_content?_find?_prune {name : String} (hwf : tree.WellFormed)
    (hleft : Left removed tree names)
    (hclear : ∀ inner, tree.find? (names ++ [name]) = some (.dir inner) →
      removed (names ++ [name]) = false) :
    ((tree.prune removed).find? (names ++ [name])).map FileSystem.content? =
      (tree.find? (names ++ [name])).map FileSystem.content? := by
  have hbelow : Left removed tree (names ++ [name]) := by
    rintro above hne hpre ⟨inner, habove⟩
    rcases List.prefix_concat_iff.mp hpre with rfl | hpre
    · exact hclear inner habove
    · exact hleft above hne hpre ⟨inner, habove⟩
  cases hfind : tree.find? (names ++ [name]) with
  | none =>
    have hnone : (tree.prune removed).find? (names ++ [name]) = none := by
      rw [Option.eq_none_iff_forall_ne_some]
      intro node' hnode'
      obtain ⟨node, hnode, -⟩ := (find?_prune_iff hwf).mp hnode'
      rw [hfind] at hnode
      contradiction
    rw [hnone]
  | some node =>
    rw [(find?_prune_iff hwf).mpr ⟨node, hfind, hbelow, rfl⟩]
    cases node with
    | file content => rfl
    | dir inner => rfl

end FileTree

/-- The files of a directory are listed alike when directories in it are removed. -/
theorem Listing.ofEntries_pruneEntries (extensions : Extensions) (path : Path)
    (removed : List String → Bool) (entries : List (String × FileTree)) :
    ofEntries extensions path (FileTree.pruneEntries removed entries) =
      ofEntries extensions path entries := by
  have hnames : ∀ kind, namesOf extensions path kind (FileTree.pruneEntries removed entries) =
      namesOf extensions path kind entries := by
    intro kind
    have hfiles := FileTree.filter_pruneEntries removed
      (fun name => extensions.kindOf (path.child name) == kind) entries
    simp only [namesOf, hfiles]
  simp only [ofEntries, hnames]

section Pruned

variable (hnode : fs.node? project.sourceDir = .ok tree) (hwf : tree.WellFormed)
  (hnode' : fs'.node? project.sourceDir = .ok (tree.prune (excludedBy patterns)))
  (hfind : tree.find? names = some (.dir entries))
  (hleft : FileTree.Left (excludedBy patterns) tree names)
include hnode hwf hnode' hfind hleft

/-- The files of a directory that is left are read alike. -/
theorem Listing.read_prune (extensions : Extensions)
    (hfits : FileSystem.refusal? (project.sourceDir.under names) = none) :
    Listing.read fs extensions (project.sourceDir.under names) =
      Listing.read fs' extensions (project.sourceDir.under names) := by
  have hplain := hwf.isPlain_of_find? hfind
  have hpruned := FileTree.find?_prune_dir hwf hfind hleft
  rw [read_of_node? (FileSystem.node?_under hplain hnode hfind hfits),
    read_of_node? (FileSystem.node?_under hplain hnode' hpruned hfits), ofEntries_pruneEntries]

/-- **The manifest of a directory that is left is read alike**, unless an excluded
directory has its name. -/
theorem Project.manifestOf_prune (hmanifest : Path.isPlain project.settings.layout.manifest = true)
    (hclear : ∀ inner,
      tree.find? (names ++ [project.settings.layout.manifest]) = some (.dir inner) →
      excludedBy patterns (names ++ [project.settings.layout.manifest]) = false) :
    project.manifestOf fs names = project.manifestOf fs' names := by
  have hplain := hwf.isPlain_of_find? hfind
  have hpath : (project.sourceDir.under names).child project.settings.layout.manifest =
      project.sourceDir.under (names ++ [project.settings.layout.manifest]) :=
    (Path.under_append project.sourceDir names [project.settings.layout.manifest]).symm
  apply Manifest.load_congr
  rw [hpath]
  exact FileSystem.readText_under_congr hplain hmanifest hnode hnode' hfind
    (FileTree.find?_prune_dir hwf hfind hleft)
    (FileTree.map_content?_find?_prune hwf hleft hclear).symm

end Pruned

/-! ### The scan -/

namespace Project

/-- A directory whose manifest is read is one that a scan keeps. -/
theorem ReadsManifest.exists_entries (hwf : tree.WellFormed)
    (hroot : project.sourceDir.text ≠ "")
    (hpatterns : parseExcludes project.settings.scan.exclude = .ok patterns)
    (h : project.ReadsManifest fs tree names) :
    ∃ entries, tree.find? names = some (.dir entries) ∧
      KeepsTo (Scanner.keeps ⟨project, patterns⟩) project.sourceDir names := by
  have hmakes : ∀ place, project.MakesTarget tree place →
      ∃ entries, tree.find? place = some (.dir entries) ∧
        KeepsTo (Scanner.keeps ⟨project, patterns⟩) project.sourceDir place := by
    intro place hplace
    obtain ⟨name, content, hfile, -⟩ := hplace.holds_source
    obtain ⟨entries, hdir⟩ := FileTree.exists_dir_of_find?_concat hfile
    exact ⟨entries, hdir, (Scanner.keepsTo_keeps_iff (s := ⟨project, patterns⟩)
      (hwf.isPlain_of_find? hdir) hpatterns hroot).mpr hplace.kept⟩
  cases h with
  | own hnames => exact hmakes names hnames
  | @owner below manifest hbelow hmanifest hexe hlast =>
    obtain ⟨entries, hdir, hkeeps⟩ := hmakes below hbelow
    have hne : below ≠ [] := by
      rintro rfl
      simp at hlast
    have hsplit := List.dropLast_append_getLast hne
    rw [← hsplit] at hdir
    obtain ⟨above, habove⟩ := FileTree.exists_dir_of_find?_concat hdir
    exact ⟨above, habove, fun place hplace hpre =>
      hkeeps place hplace (hpre.trans (List.dropLast_prefix below))⟩

/-- **Exclusion is deletion**: a scan with exclude patterns is a scan without any,
of the tree without the directories that they match. No excluded directory may stand
where a manifest is read. -/
theorem scan_eq_scan_prune
    (hpatterns : parseExcludes project.settings.scan.exclude = .ok patterns)
    (hmanifest : Path.isPlain project.settings.layout.manifest = true)
    (hnode : fs.node? project.sourceDir = .ok tree) (hwf : tree.WellFormed)
    (hnode' : fs'.node? project.sourceDir = .ok (tree.prune (excludedBy patterns)))
    (hclear : ∀ names inner, project.ReadsManifest fs tree names →
      tree.find? (names ++ [project.settings.layout.manifest]) = some (.dir inner) →
        excludedBy patterns (names ++ [project.settings.layout.manifest]) = false)
    (supply : Identifier.Supply) :
    project.scan fs supply = project.withoutExcludes.scan fs' supply := by
  have hroot := FileSystem.text_ne_of_refusal? (FileSystem.node?_eq_ok_iff.mp hnode).1
  have hnone : parseExcludes project.withoutExcludes.settings.scan.exclude = .ok [] := rfl
  apply scan_congr
  rw [survey_of_patterns hpatterns, survey_of_patterns hnone]
  refine Scanner.survey_eq_of_readsManifest hpatterns hnode hwf hnode' rfl
    (Scanner.walk_excluded hroot hwf) ?_ ?_
  · intro names entries hfind hkeeps hfits
    have hleft : FileTree.Left (excludedBy patterns) tree names :=
      Scanner.left_of_keepsTo hroot (hwf.isPlain_of_find? hfind) hkeeps
    exact Listing.read_prune hnode hwf hnode' hfind hleft _ hfits
  · intro names hreads
    obtain ⟨entries, hfind, hkeeps⟩ := hreads.exists_entries hwf hroot hpatterns
    have hleft : FileTree.Left (excludedBy patterns) tree names :=
      Scanner.left_of_keepsTo hroot (hwf.isPlain_of_find? hfind) hkeeps
    exact manifestOf_prune hnode hwf hnode' hfind hleft hmanifest fun inner hinner =>
      hclear names inner hreads hinner

/-! ### A directory that is excluded, and one that has the name of a manifest -/

/-- A source tree with a source, and another one in a directory. -/
def besideDirectory (name : String) : FileTree :=
  .dir [("a.cpp", .file .empty), (name, .dir [("b.cpp", .file .empty)])]

def sourceFiles (tree : FileTree) : FileSystem where
  tree := .dir [("src", tree)]

def excluding (pattern : String) : Project where
  root := ⟨"/"⟩
  sourceDir := .ofPlace ["src"]
  outputDir := ⟨"/bin"⟩
  intermediateDir := ⟨"/out"⟩
  settings := { scan := { exclude := [pattern] } }

def patternOf (text : String) : Pattern :=
  ⟨text.toList.map .char⟩

theorem node?_sourceFiles (pattern : String) (tree : FileTree) :
    (sourceFiles tree).node? (excluding pattern).sourceDir = .ok tree :=
  FileSystem.node?_ofPlace_of_find? rfl (by decide)
    (by simp [sourceFiles, FileTree.find?, FileTree.entries]) (by decide)

theorem wellFormed_source : (FileTree.dir [("b.cpp", .file .empty)]).WellFormed := by
  have hplain : ∀ name ∈ ["b.cpp"], Path.isPlain name = true := by decide
  exact FileTree.wellFormed_nest hplain (.file .empty)

theorem wellFormed_besideDirectory {name : String} (hplain : Path.isPlain name = true)
    (hne : "a.cpp" ≠ name) : (besideDirectory name).WellFormed := by
  refine .dir (by simpa using hne) ?_ ?_
  · simpa using ⟨(by decide : Path.isPlain "a.cpp" = true), hplain⟩
  · simpa using ⟨.file .empty, wellFormed_source⟩

theorem eq_of_find?_besideDirectory {name : String} (hwf : (besideDirectory name).WellFormed)
    (h : (besideDirectory name).find? names = some (.dir entries)) :
    names = [] ∨ names = [name] := by
  rcases names with - | ⟨first, names⟩
  · exact .inl rfl
  obtain ⟨next, hmem, hnext⟩ := hwf.find?_cons_iff.mp h
  simp only [List.mem_cons, Prod.mk.injEq, List.not_mem_nil, or_false] at hmem
  rcases hmem with ⟨rfl, rfl⟩ | ⟨rfl, rfl⟩
  · cases names <;> simp at hnext
  · rcases names with - | ⟨second, names⟩
    · exact .inr rfl
    obtain ⟨last, hlast, hfile⟩ := wellFormed_source.find?_cons_iff.mp hnext
    obtain ⟨rfl, rfl⟩ := Prod.mk.inj (List.mem_singleton.mp hlast)
    cases names <;> simp at hfile

/-- Only the excluded directory goes; the source beside it stays. -/
theorem prune_besideDirectory {name : String} (h : excludedBy patterns [name] = true) :
    (besideDirectory name).prune (excludedBy patterns) = .dir [("a.cpp", .file .empty)] := by
  simp [besideDirectory, FileTree.prune, FileTree.pruneEntries, FileTree.isDir, h]

/-- The source in a directory is not seen when the directory is excluded: the only
target is that of the source root. -/
theorem scan_eq_scan_prune_old :
    parseExcludes (excluding "old").settings.scan.exclude = .ok [patternOf "old"] ∧
    (besideDirectory "old").prune (excludedBy [patternOf "old"]) =
      .dir [("a.cpp", .file .empty)] ∧
    (excluding "old").scan (sourceFiles (besideDirectory "old")) ⟨.nil⟩ =
      (excluding "old").withoutExcludes.scan
        (sourceFiles (.dir [("a.cpp", .file .empty)])) ⟨.nil⟩ ∧
    ((excluding "old").withoutExcludes.scan
      (sourceFiles (.dir [("a.cpp", .file .empty)])) ⟨.nil⟩).1.toOption.map Catalog.directories =
        some [""] := by
  have hpatterns : parseExcludes (excluding "old").settings.scan.exclude =
      .ok [patternOf "old"] := by cbv
  have hpruned : (besideDirectory "old").prune (excludedBy [patternOf "old"]) =
      .dir [("a.cpp", .file .empty)] := prune_besideDirectory (by decide +kernel)
  have hwf : (besideDirectory "old").WellFormed :=
    wellFormed_besideDirectory (by decide) (by decide)
  have hnode' : (sourceFiles (.dir [("a.cpp", .file .empty)])).node? (excluding "old").sourceDir =
      .ok ((besideDirectory "old").prune (excludedBy [patternOf "old"])) := by
    rw [hpruned]
    exact node?_sourceFiles "old" _
  refine ⟨hpatterns, hpruned, scan_eq_scan_prune hpatterns (by decide)
    (node?_sourceFiles "old" _) hwf hnode' ?_ ⟨.nil⟩, by decide +kernel⟩
  intro names inner _ hinner
  rcases eq_of_find?_besideDirectory hwf hinner with h | h
  · simp at h
  · have hlast := congrArg List.getLast? h
    simp [excluding] at hlast

def excludingScanner (text : String) : Scanner :=
  ⟨excluding text, [patternOf text]⟩

/-- The walk stops before the excluded directory, which is called like a manifest,
so that the source root is the only directory to look at. -/
theorem survey_besideManifest :
    (excluding "build.mk").survey (sourceFiles (besideDirectory "build.mk")) =
      .ok ⟨[(excludingScanner "build.mk").inspect (sourceFiles (besideDirectory "build.mk"))
        ⟨"/src"⟩]⟩ := by
  have hpatterns : parseExcludes (excluding "build.mk").settings.scan.exclude =
      .ok [patternOf "build.mk"] := by cbv
  have hwalk : walk (excludingScanner "build.mk").keeps
      (excludingScanner "build.mk").project.sourceDir (besideDirectory "build.mk") =
      [⟨"/src"⟩] := by
    rw [besideDirectory, walk_dir_of_sorted (by decide)]
    decide +kernel
  have hfits : ∀ dir ∈ ([⟨"/src"⟩] : List Path), FileSystem.refusal? dir = none := by
    decide +kernel
  exact survey_of_walk hpatterns (node?_sourceFiles "build.mk" _) hwalk hfits

/-- **An excluded directory is still there** for a manifest of its name to be read
from: the scan fails, and that of the tree without the directory does not. -/
theorem not_scan_eq_scan_prune :
    parseExcludes (excluding "build.mk").settings.scan.exclude = .ok [patternOf "build.mk"] ∧
    Path.isPlain (excluding "build.mk").settings.layout.manifest = true ∧
    (besideDirectory "build.mk").WellFormed ∧
    (besideDirectory "build.mk").prune (excludedBy [patternOf "build.mk"]) =
      .dir [("a.cpp", .file .empty)] ∧
    (excluding "build.mk").scan (sourceFiles (besideDirectory "build.mk")) ⟨.nil⟩ ≠
      (excluding "build.mk").withoutExcludes.scan
        (sourceFiles (.dir [("a.cpp", .file .empty)])) ⟨.nil⟩ := by
  refine ⟨by cbv, by decide, wellFormed_besideDirectory (by decide) (by decide),
    prune_besideDirectory (by decide +kernel), ?_⟩
  intro h
  have hleft : ((excluding "build.mk").scan
      (sourceFiles (besideDirectory "build.mk")) ⟨.nil⟩).1.isOk = false := by
    rw [scan, survey_besideManifest]
    decide +kernel
  have hright : ((excluding "build.mk").withoutExcludes.scan
      (sourceFiles (.dir [("a.cpp", .file .empty)])) ⟨.nil⟩).1.isOk = true := by
    decide +kernel
  rw [h, hright] at hleft
  contradiction

end Project

end SolutionTree
