import SolutionTree.Proofs.Report
import SolutionTree.Proofs.Scan.Owners

/-!
What tests and scripts get of the directory above them.

A runnable carries the name of its owner, which is made of the directory above it,
and the name is looked up among all targets again when the solution is assembled and
when project files are written. Where the directory above makes a target, the name
is that target's and finds it: it is the last reference of the runnable, and its
library, if it is one, is all that the runnable links. Where the directory above
makes no target, and none of another directory has the name by chance, the runnable
links nothing and refers to nothing but what the owner's manifest declares
(`ownedFromAbove_of_generate`).

Names of directories are not told apart when their slashes are gone: `a/b` and `a_b`
are both called `a_b`. So a directory without sources may lend its runnables the
library of another one (`not_ownedFromAbove_namesake`).
-/

namespace SolutionTree

/-! ### Owners by name -/

namespace Catalog

variable {c : Catalog} {t : Target} {owner : Owner}

/-- The dependencies of a runnable end in the name of its owner. -/
theorem getLast?_of_ofCatalog (ht : t ∈ c.targets) (hrun : t.kind.isRunnable = true)
    (howner : t.owner = some owner) :
    ((Dependencies.ofCatalog c).of t.name).getLast? = some owner.name := by
  rw [Dependencies.of_ofCatalog ht, dependenciesOf, runnableOwner?_eq_some_iff.mpr ⟨hrun, howner⟩]
  exact List.getLast?_concat

end Catalog

/-! ### Reports -/

/-- What a test or a script of a report has of its owner, the directory above it. -/
structure Report.OwnedFromAbove (r : Report) (p : Project) (catalog : Catalog) (m : Member)
    (owner : Owner) (declared : List Reference) : Prop where
  carried : m.target.owner = some owner
  above : IsParent m.target.relativeDir owner.relativeDir
  /-- The dependencies end in the owner's name. -/
  ends : ((Dependencies.ofCatalog catalog).of m.target.name).getLast? = some owner.name
  /-- What the dependencies before it come to. -/
  declares : catalog.Refers owner.relativeDir owner.dependencies declared
  written : ProjectFile.ofMember p r.solution m ∈ r.projectFiles
  /-- A target in the directory above is the owner, and its library, if it is one,
  is linked. -/
  owned : ∀ u ∈ r.solution.members, u.target.relativeDir = owner.relativeDir →
    owner.name = u.target.name ∧ m.references = declared ++ [u.target.reference] ∧
      (ProjectFile.ofMember p r.solution m).linkLibraries = u.target.linked
  /-- Without a target of the owner's name there is no owner, and nothing is linked.
  -/
  alone : (∀ u ∈ r.solution.members, u.target.name ≠ owner.name) →
    m.references = declared ∧ (ProjectFile.ofMember p r.solution m).linkLibraries = []

namespace Project

variable {p : Project} {fs : FileSystem} {tree : FileTree} {catalog : Catalog} {r : Report}

/-- **A test or a script belongs to the directory above it.** If that makes a
target, the last reference is to the target, and the target's library is linked, or
nothing if it is no library. If no target is called like the directory above, there
is no such reference, and nothing is linked. -/
theorem ownedFromAbove_of_generate (htree : fs.node? p.sourceDir = .ok tree) (hwf : tree.WellFormed)
    (hscan : p.scanSeeded fs = .ok catalog) (h : p.generate fs = .ok r) {m : Member}
    (hm : m ∈ r.solution.members) (hrun : m.target.kind.isRunnable = true) :
    ∃ owner declared, r.OwnedFromAbove p catalog m owner declared := by
  obtain ⟨catalog', s, hscan', hassemble, rfl⟩ := generate_eq_ok_iff.mp h
  obtain rfl : catalog = catalog' := Except.ok.inj (hscan.symm.trans hscan')
  obtain ⟨seed, supply', -, hscan⟩ := scanSeeded_eq_ok_iff.mp hscan
  have hdirs := nodup_directories_of_scan htree hwf hscan
  obtain ⟨t, ht, rfl⟩ := (Solution.mem_members_iff hassemble).mp hm
  obtain ⟨owner, names, howner, hparent, hplain, howns⟩ :=
    exists_owner_of_scan htree hwf hscan ht hrun
  have hdeclares := (Catalog.refers_iff hdirs).mpr
    (rfl : _ = catalog.declaredReferences owner.relativeDir owner.dependencies)
  refine ⟨owner, catalog.declaredReferences owner.relativeDir owner.dependencies,
    howner, hparent, Catalog.getLast?_of_ofCatalog ht hrun howner, hdeclares,
    List.mem_map_of_mem hm, ?_, ?_⟩
  · intro n hn hdir
    obtain ⟨u, hu, rfl⟩ := (Solution.mem_members_iff hassemble).mp hn
    obtain ⟨above, habove, hdescribes⟩ := describes_of_scan htree hwf hscan hu
    obtain rfl := howns.eq_of_relativeDir hplain (habove.isPlain hwf) hdescribes hdir
    have hname := howns.name_eq hdescribes
    refine ⟨hname, Catalog.references_of_owned hdirs ht hrun howner hdeclares hu hname.symm _, ?_⟩
    have hfind := (Solution.find?_eq_some_iff hassemble).mpr ⟨hn, hname.symm⟩
    exact ProjectFile.linkedLibraries_of_owned hrun howner hfind
  · intro hfree
    have habsent : owner.name ∉ catalog.names := by
      rw [Catalog.mem_names_iff]
      rintro ⟨u, hu, hname⟩
      exact hfree _ ((Solution.mem_members_iff hassemble).mpr ⟨u, hu, rfl⟩) hname
    refine ⟨Catalog.references_of_alone hdirs ht hrun howner hdeclares habsent _, ?_⟩
    have hfind := Solution.find?_eq_none_iff.mpr hfree
    exact ProjectFile.linkedLibraries_of_alone hrun howner hfind

/-! ### Two directories of one name -/

/-- The files of a directory that has a source in it besides a directory. -/
def sourceBeside (name : String) (node : FileTree) : List (String × FileTree) :=
  [(name, node), ("x.cpp", .file .empty)]

/-- A source tree with a test in `a/b`, which holds no sources, and a library in
`a_b`, in which a script stands. -/
def namesakeTree : FileTree :=
  .dir [("a", .dir [("b", .dir [("test", .dir [("t.cpp", .file .empty)])])]),
    ("a_b", .dir (sourceBeside "script" (.dir [("s.cpp", .file .empty)])))]

def namesakeFiles : FileSystem where
  tree := .dir [("src", namesakeTree)]

def namesake : Project where
  root := ⟨"/"⟩
  sourceDir := ⟨"/src"⟩
  outputDir := ⟨"/bin"⟩
  intermediateDir := ⟨"/out"⟩
  settings := {}

def namesakeWalk : List Path :=
  [⟨"/src"⟩, ⟨"/src/a"⟩, ⟨"/src/a/b"⟩, ⟨"/src/a/b/test"⟩, ⟨"/src/a_b"⟩, ⟨"/src/a_b/script"⟩]

theorem wellFormed_namesakeTree : namesakeTree.WellFormed := by
  have htest : (FileTree.nest ["b", "test", "t.cpp"] (.file .empty)).WellFormed :=
    FileTree.wellFormed_nest (by decide) (.file .empty)
  have hscript : (FileTree.nest ["s.cpp"] (.file .empty)).WellFormed :=
    FileTree.wellFormed_nest (by decide) (.file .empty)
  have hlibrary : (FileTree.dir (sourceBeside "script"
      (.dir [("s.cpp", .file .empty)]))).WellFormed := by
    refine .dir (by decide) (by decide) ?_
    simpa [sourceBeside] using ⟨hscript, .file .empty⟩
  refine .dir (by decide) (by decide) ?_
  simpa using ⟨htest, hlibrary⟩

theorem node?_namesake : namesakeFiles.node? namesake.sourceDir = .ok namesakeTree := by rfl

theorem survey_namesake : namesake.survey namesakeFiles =
    .ok ⟨namesakeWalk.map (Scanner.inspect ⟨namesake, []⟩ namesakeFiles)⟩ := by
  have hlibrary : walk (Scanner.keeps ⟨namesake, []⟩) (namesake.sourceDir.child "a_b")
      (.dir (sourceBeside "script" (.dir [("s.cpp", .file .empty)]))) =
      [⟨"/src/a_b"⟩, ⟨"/src/a_b/script"⟩] := by
    rw [walk_dir_of_sorted (by decide)]
    decide +kernel
  have hwalk : walk (Scanner.keeps ⟨namesake, []⟩) namesake.sourceDir namesakeTree =
      namesakeWalk := by
    rw [namesakeTree, walk_dir_of_sorted (by decide), walkEntries, walkEntries, hlibrary]
    decide +kernel
  have hfits : ∀ dir ∈ namesakeWalk, FileSystem.refusal? dir = none := by decide +kernel
  exact survey_of_walk rfl node?_namesake hwalk hfits

def testRow : Row := ⟨"a/b/test", "a_b_test", .test, {}, some ⟨"a_b", "a/b", []⟩⟩

def libraryRow : Row := ⟨"a_b", "a_b", .library, {}, none⟩

def scriptRow : Row := ⟨"a_b/script", "a_b_script", .script, {}, some ⟨"a_b", "a_b", []⟩⟩

def namesakeRows : List Row := [testRow, libraryRow, scriptRow]

/-- The scan finds the test, whose owner is called like the library in another
directory, and the script that stands in the directory of that library. -/
theorem scan_namesake (supply : Identifier.Supply) :
    ∃ catalog supply', namesake.scan namesakeFiles supply = (.ok catalog, supply') ∧
      catalog.targets.map Target.row = namesakeRows := by
  have hfound : (Survey.gather (namesakeWalk.map
      (Scanner.inspect ⟨namesake, []⟩ namesakeFiles))).toOption.map (List.map Candidate.row) =
        some namesakeRows := by
    decide +kernel
  exact exists_catalog_of_rows survey_namesake hfound (.refl _) (by decide) (by decide) supply

theorem relativeDir_mem_namesakeRows {s : Solution} {options : SolutionOptions}
    (hrows : catalog.targets.map Target.row = namesakeRows)
    (hassemble : Solution.assemble catalog (.ofCatalog catalog) options = .ok s) {m : Member}
    (hm : m ∈ s.members) : m.target.relativeDir ∈ namesakeRows.map Row.relativeDir := by
  obtain ⟨t, ht, rfl⟩ := (Solution.mem_members_iff hassemble).mp hm
  rw [← hrows, List.map_map]
  exact List.mem_map_of_mem ht

/-- The script in `a_b` refers to the library there, and links it. -/
theorem ownedFromAbove_of_generate_namesake :
    namesakeFiles.node? namesake.sourceDir = .ok namesakeTree ∧ namesakeTree.WellFormed ∧
    ∃ catalog r, namesake.scanSeeded namesakeFiles = .ok catalog ∧
      namesake.generate namesakeFiles = .ok r ∧
      ∃ m ∈ r.solution.members, m.target.relativeDir = "a_b/script" ∧
        m.target.kind.isRunnable = true ∧
        ∃ u ∈ r.solution.members, u.target.relativeDir = "a_b" ∧
          m.references.getLast? = some u.target.reference ∧
          (ProjectFile.ofMember namesake r.solution m).linkLibraries = ["a_b.lib"] := by
  obtain ⟨catalog, s, hscan, hrows, hassemble, h⟩ :=
    exists_report_of_scan rfl (by decide +kernel) scan_namesake
  obtain ⟨m, hm, hdir, -, hkind, -, howner⟩ :=
    Solution.exists_member_of_row hassemble hrows (by decide : scriptRow ∈ namesakeRows)
  obtain ⟨u, hu, habove, hname, hlibrary, -, -⟩ :=
    Solution.exists_member_of_row hassemble hrows (by decide : libraryRow ∈ namesakeRows)
  have hrun : m.target.kind.isRunnable = true := by
    rw [hkind]
    rfl
  obtain ⟨owner, declared, howned⟩ :=
    ownedFromAbove_of_generate node?_namesake wellFormed_namesakeTree hscan h hm hrun
  obtain rfl : owner = ⟨"a_b", "a_b", []⟩ := Option.some.inj (howned.carried.symm.trans howner)
  obtain ⟨-, hreferences, hlinks⟩ := howned.owned u hu habove
  refine ⟨node?_namesake, wellFormed_namesakeTree, catalog, _, hscan, h, m, hm, hdir, hrun, u, hu,
    habove, ?_, ?_⟩
  · rw [hreferences, List.getLast?_concat]
  · rw [hlinks, Target.linked, hname, hlibrary]
    rfl

/-- **The name of an owner may be that of another directory.** The test in `a/b`
links the library of `a_b` and refers to it, though no target comes of `a/b`. -/
theorem not_ownedFromAbove_namesake :
    ∃ r, namesake.generate namesakeFiles = .ok r ∧
      ∃ m ∈ r.solution.members, m.target.kind = .test ∧ IsParent m.target.relativeDir "a/b" ∧
        (∀ v ∈ r.solution.members, v.target.relativeDir ≠ "a/b") ∧
        ∃ u ∈ r.solution.members, u.target.relativeDir = "a_b" ∧
          m.references = [u.target.reference] ∧
          (ProjectFile.ofMember namesake r.solution m).linkLibraries = ["a_b.lib"] := by
  obtain ⟨catalog, s, hscan, hrows, hassemble, h⟩ :=
    exists_report_of_scan rfl (by decide +kernel) scan_namesake
  obtain ⟨seed, supply', -, hscan⟩ := scanSeeded_eq_ok_iff.mp hscan
  have hdirs := nodup_directories_of_scan node?_namesake wellFormed_namesakeTree hscan
  obtain ⟨m, hm, hdir, -, hkind, -, howner⟩ :=
    Solution.exists_member_of_row hassemble hrows (by decide : testRow ∈ namesakeRows)
  obtain ⟨u, hu, habove, hname, hlibrary, -, -⟩ :=
    Solution.exists_member_of_row hassemble hrows (by decide : libraryRow ∈ namesakeRows)
  have hrun : m.target.kind.isRunnable = true := by
    rw [hkind]
    rfl
  have hnone : ∀ v ∈ s.members, v.target.relativeDir ≠ "a/b" := by
    intro v hv hdir
    have hfirst := relativeDir_mem_namesakeRows hrows hassemble hv
    rw [hdir] at hfirst
    exact absurd hfirst (by decide)
  have hparent : IsParent m.target.relativeDir "a/b" := by
    rw [hdir]
    exact isParent_parentDir "a/b/test"
  have hfind := (Solution.find?_eq_some_iff hassemble).mpr ⟨hu, hname⟩
  have hlinks := ProjectFile.linkedLibraries_of_owned hrun howner hfind
  obtain ⟨t, ht, rfl⟩ := (Solution.mem_members_iff hassemble).mp hm
  obtain ⟨v, hv, rfl⟩ := (Solution.mem_members_iff hassemble).mp hu
  have hreferences := Catalog.references_of_owned hdirs ht hrun howner .nil hv hname
    namesake.settings.solution.options.extension
  refine ⟨_, h, _, hm, hkind, hparent, hnone, _, hu, habove, hreferences, ?_⟩
  rw [ProjectFile.ofMember, hlinks, Target.linked, hname, hlibrary]
  rfl

end Project

end SolutionTree
