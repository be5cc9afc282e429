import SolutionTree.Proofs.FileSystem.Reordered
import SolutionTree.Proofs.Scan.Identifiers
import SolutionTree.Proofs.Scan.Reading

/-!
A scan does not show the order in which directories are listed.

Two file systems that differ only in that order are scanned to the same catalog, with its targets in the
same order, their identifiers and the lists of their files, or to the same fault
(`scan_eq_of_reordered`). Nothing is asked of the project: what it reads may lie outside its source tree,
its patterns may be malformed, and its source tree may be missing.

* `walk_eq_of_reordered` — the walk puts what it finds below a directory in the order of names, so also
  the first fault is the same.
* `Scanner.inspect_eq_of_reordered` — a single directory is looked at alike.
-/

namespace SolutionTree

variable {fs fs' : FileSystem}

/-! ### The walk -/

/-- Branches are ordered by their names, whatever order they come in. -/
theorem inNameOrder_perm {branches branches' : List (String × List Path)}
    (hnames : (branches.map Prod.fst).Nodup) (h : branches.Perm branches') :
    inNameOrder branches = inNameOrder branches' := by
  rw [inNameOrder, inNameOrder, Sorting.sortBy_eq_of_perm hnames h]

/-- **The walk of a tree** comes to its directories in one order, however they are
listed. -/
theorem walk_eq_of_reordered {keep : Path → Bool} {path : Path} {tree tree' : FileTree}
    (h : tree.Reordered tree') : walk keep path tree = walk keep path tree' := by
  induction h generalizing path with
  | file content => rfl
  | @dir entries entries' hnodup hnames hentries ih =>
    rw [walk, walk, walkEntries_eq_map, walkEntries_eq_map]
    congr 1
    refine inNameOrder_perm ?_ (FileTree.perm_map_of_names hnames ?_)
    · rw [List.map_map]
      exact hnodup
    · intro name node node' hmem hmem'
      rw [ih name node node' hmem hmem']

/-! ### Single directories -/

namespace Scanner

variable {s : Scanner}

section Reordered

variable (h : fs.Reordered fs')
include h

theorem loadManifest_eq_of_reordered (dir : Path) :
    s.loadManifest fs dir = s.loadManifest fs' dir :=
  Manifest.load_congr (FileSystem.readText_eq_of_reordered h _)

/-- What is found in a directory does not tell in which order it is listed: its
files are sorted, and manifests are read by their paths. -/
theorem inspect_eq_of_reordered (dir : Path) : s.inspect fs dir = s.inspect fs' dir := by
  apply inspect_congr (Listing.read_eq_of_reordered h _ dir)
  · intro _
    exact loadManifest_eq_of_reordered h dir
  · intro _
    exact ownerOf_congr (loadManifest_eq_of_reordered h _)

/-- The walk sorts what it finds below entries by their names, so it comes to the
same directories in the same order. -/
theorem directories_eq_of_reordered : s.directories fs = s.directories fs' := by
  rcases (FileSystem.node?_reordered h s.project.sourceDir).error_or_ok with
    ⟨e, hleft, hright⟩ | ⟨tree, tree', hleft, hright, htree⟩
  · simp only [directories, hleft, hright]
  · exact directories_of_walk_eq hleft hright (walk_eq_of_reordered htree)

theorem survey_eq_of_reordered : s.survey fs = s.survey fs' :=
  survey_congr (directories_eq_of_reordered h) fun _ _ dir _ => inspect_eq_of_reordered h dir

end Reordered

end Scanner

/-! ### The scan -/

namespace Project

/-- **A scan does not show in which order directories are listed**: from the same
supply it comes to the same catalog or the same fault, and leaves the same supply.
-/
theorem scan_eq_of_reordered (project : Project) (h : fs.Reordered fs')
    (supply : Identifier.Supply) : project.scan fs supply = project.scan fs' supply := by
  apply scan_congr
  rw [survey, survey]
  cases Scanner.ofProject project with
  | error fault => rfl
  | ok scanner => exact Scanner.survey_eq_of_reordered h

/-! ### A tree that is listed backwards -/

/-- The same tree as `hyphenTree`, with the last entries first. -/
def backwardTree : FileTree :=
  .dir [("a-old", .dir [("z.cpp", .file .empty)]), ("a-b", .dir [("y.cpp", .file .empty)]),
    ("a", .dir testedEntries.reverse)]

def backwardFiles : FileSystem where
  tree := .dir [("src", backwardTree)]

theorem reordered_backwardTree : hyphenTree.Reordered backwardTree := by
  have hfile : ∀ name, Path.isPlain name = true →
      (FileTree.dir [(name, .file .empty)]).Reordered (.dir [(name, .file .empty)]) := by
    intro name hname
    have hplain : ∀ n ∈ [name], Path.isPlain n = true := by simpa using hname
    exact .refl (FileTree.wellFormed_nest hplain (.file .empty))
  have htested : (FileTree.dir testedEntries).Reordered (.dir testedEntries.reverse) := by
    refine .of_perm (by decide) (List.reverse_perm _).symm ?_
    simpa [testedEntries] using ⟨hfile "t.cpp" (by decide), .file .empty⟩
  refine .dir (by decide) (by decide) ?_
  intro name node node' hmem hmem'
  simp only [List.mem_cons, Prod.mk.injEq, List.not_mem_nil, or_false] at hmem hmem'
  rcases hmem with ⟨rfl, rfl⟩ | ⟨rfl, rfl⟩ | ⟨rfl, rfl⟩
  · obtain rfl : node' = .dir testedEntries.reverse := by simpa using hmem'
    exact htested
  · obtain rfl : node' = .dir [("y.cpp", .file .empty)] := by simpa using hmem'
    exact hfile "y.cpp" (by decide)
  · obtain rfl : node' = .dir [("z.cpp", .file .empty)] := by simpa using hmem'
    exact hfile "z.cpp" (by decide)

theorem reordered_backwardFiles : hyphenFiles.Reordered backwardFiles where
  tree := by
    refine .dir (by decide) (.refl _) ?_
    intro name node node' hmem hmem'
    obtain ⟨-, rfl⟩ := Prod.mk.inj (List.mem_singleton.mp hmem)
    obtain ⟨-, rfl⟩ := Prod.mk.inj (List.mem_singleton.mp hmem')
    exact reordered_backwardTree
  cwd := rfl

/-- The targets of `hyphen` come in the same order when everything is listed
backwards. -/
theorem scan_eq_of_reordered_backward :
    hyphenFiles.Reordered backwardFiles ∧
    ∃ catalog supply', hyphen.scan backwardFiles ⟨.ones⟩ = (.ok catalog, supply') ∧
      hyphen.scan hyphenFiles ⟨.ones⟩ = (.ok catalog, supply') ∧
      catalog.directories = ["a", "a-b", "a/test"] := by
  obtain ⟨catalog, supply', hscan, hdirs⟩ := scan_hyphen ⟨.ones⟩
  have hsame := scan_eq_of_reordered hyphen reordered_backwardFiles ⟨.ones⟩
  exact ⟨reordered_backwardFiles, catalog, supply', hsame.symm.trans hscan, hscan, hdirs⟩

end Project

end SolutionTree
