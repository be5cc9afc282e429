import SolutionTree.Command.Run
import SolutionTree.Proofs.Report
import SolutionTree.Proofs.Scan.Edited

/-!
Manifests that nobody reads.

A manifest counts where a target is made, and where a test or a script right below
takes its owner from (`Project.ReadsManifest`). The manifest of a directory that is
neither may say anything, be no text at all or be missing (`EditsIdleManifest`):
nothing is found in the directory in any case (`inspect_of_sourceless`), the
manifests that count are those of other directories
(`EditsIdleManifest.manifestOf_eq`), and so the surveys of both trees are the same,
and all that comes of them (`generate_of_editsIdleManifest`).
-/

namespace SolutionTree

/-! ### Trees with the same files -/

namespace Listing

variable {extensions : Extensions} {p : Path} {kind : FileKind}
  {entries entries' : List (String × FileTree)}

/-- Sorting gives one list for names that are all different. -/
theorem namesOf_increasing (hnodup : (entries.map Prod.fst).Nodup) :
    (namesOf extensions p kind entries).Pairwise (· < ·) := by
  refine Sorting.pairwise_lt_of_nodup (Sorting.pairwise_sortBy id _) ?_
  rw [List.map_id']
  exact (List.mergeSort_perm _ _).nodup_iff.mpr
    (hnodup.sublist (List.filter_sublist.map Prod.fst))

/-- Directories with the same files are listed alike. -/
theorem ofEntries_eq_of_files (extensions : Extensions) (p : Path)
    (hnodup : (entries.map Prod.fst).Nodup) (hnodup' : (entries'.map Prod.fst).Nodup)
    (h : ∀ name content, (name, FileTree.file content) ∈ entries ↔
      (name, FileTree.file content) ∈ entries') :
    ofEntries extensions p entries = ofEntries extensions p entries' := by
  have hnames : ∀ kind, namesOf extensions p kind entries =
      namesOf extensions p kind entries' := by
    intro kind
    refine List.Pairwise.eq_of_mem_iff (namesOf_increasing hnodup) (namesOf_increasing hnodup') ?_
    simp only [mem_namesOf_iff, h, implies_true]
  simp only [ofEntries, hnames]

end Listing

namespace FileTree

variable {place names : List String} {tree tree' : FileTree}
  {entries entries' : List (String × FileTree)}

/-- Trees with the same directories are walked alike. -/
theorem SameBut.walk_eq (h : tree.SameBut place tree') (hwf : tree.WellFormed)
    (hwf' : tree'.WellFormed) (keep : Path → Bool) (path : Path) :
    walk keep path tree = walk keep path tree' := by
  obtain ⟨places, hplaces⟩ := exists_walksTo hwf keep path
  obtain ⟨places', hplaces'⟩ := exists_walksTo hwf' keep path
  have heq : places = places' := by
    refine List.Pairwise.eq_of_mem_iff hplaces.increasing hplaces'.increasing fun names => ?_
    rw [hplaces.mem_iff, hplaces'.mem_iff, h.directories]
  rw [hplaces.paths, hplaces'.paths, heq]

/-- A directory that does not have the one place in it is listed alike. -/
theorem SameBut.ofEntries_eq {dir : List String} {last : String}
    (h : tree.SameBut (dir ++ [last]) tree') (hwf : tree.WellFormed) (hwf' : tree'.WellFormed)
    (hfind : tree.find? names = some (.dir entries))
    (hfind' : tree'.find? names = some (.dir entries')) (hne : names ≠ dir)
    (extensions : Extensions)
    (path : Path) : Listing.ofEntries extensions path entries =
      Listing.ofEntries extensions path entries' := by
  refine Listing.ofEntries_eq_of_files extensions path (hwf.of_find? hfind).nodup
    (hwf'.of_find? hfind').nodup fun name content => ?_
  rw [← hwf.find?_concat_iff hfind, ← hwf'.find?_concat_iff hfind']
  refine h.files _ content fun heq => hne ?_
  exact List.append_inj_left' heq rfl

/-- A file that is missing from one of two trees. -/
theorem sameBut_missing (content : ByteArray) {name : String} (h : entries.lookup name = none) :
    SameBut [name] (.dir ((name, .file content) :: entries)) (.dir entries) := by
  have hfile : ∀ names, (FileTree.dir ((name, .file content) :: entries)).find? (name :: names) =
      (FileTree.file content).find? names := by
    intro names
    simp only [find?, FileTree.entries, List.lookup_cons, beq_self_eq_true]
  have hmissing : ∀ names, (FileTree.dir entries).find? (name :: names) = none := by
    intro names
    simp only [find?, FileTree.entries, h]
  refine sameBut_of_below (fun first hne => ?_) (fun names c hne => ?_) fun names => ?_
  · simp only [List.lookup_cons, beq_false_of_ne hne]
  · obtain ⟨second, rest, rfl⟩ := List.exists_cons_of_ne_nil hne
    simp [hfile, hmissing]
  · cases names <;> simp [hfile, hmissing]

end FileTree

/-! ### Surveys -/

/-- Two source trees of a project that differ in nothing but the manifest of one
directory, which may be anything or missing. The directory holds no source in
either, and nothing right below it makes a test or a script. -/
structure Project.EditsIdleManifest (p : Project) (dir : List String) (fs fs' : FileSystem)
    (tree tree' : FileTree) : Prop where
  node : fs.node? p.sourceDir = .ok tree
  node' : fs'.node? p.sourceDir = .ok tree'
  wellFormed : tree.WellFormed
  wellFormed' : tree'.WellFormed
  manifest : Path.isPlain p.settings.layout.manifest = true
  same : tree.SameBut (dir ++ [p.settings.layout.manifest]) tree'
  sourceless : ∀ name content, tree.find? (dir ++ [name]) = some (.file content) →
    ¬ p.settings.scan.extensions.IsSourceName name
  sourceless' : ∀ name content, tree'.find? (dir ++ [name]) = some (.file content) →
    ¬ p.settings.scan.extensions.IsSourceName name
  no_runnable : ∀ name m, p.MakesTarget tree (dir ++ [name]) →
    p.manifestOf fs (dir ++ [name]) = .ok m → m.executable = none →
      name ≠ p.settings.scan.testName ∧ name ≠ p.settings.scan.scriptName

/-- Nothing is found in a directory without sources, whatever its manifest says. -/
theorem Scanner.inspect_of_sourceless {s : Scanner} {fs : FileSystem} {tree : FileTree}
    {names : List String} {entries : List (String × FileTree)}
    (hnode : fs.node? s.project.sourceDir = .ok tree) (hwf : tree.WellFormed)
    (hfind : tree.find? names = some (.dir entries))
    (hfits : FileSystem.refusal? (s.project.sourceDir.under names) = none)
    (hnone : ∀ name content, tree.find? (names ++ [name]) = some (.file content) →
      ¬ s.project.settings.scan.extensions.IsSourceName name) :
    s.inspect fs (s.project.sourceDir.under names) =
      .ok (.skipped (s.textOf (s.project.sourceDir.under names))) := by
  have hplain := hwf.isPlain_of_find? hfind
  have hroot := FileSystem.text_ne_of_refusal? (FileSystem.node?_eq_ok_iff.mp hnode).1
  have hsources : (Listing.ofEntries s.project.settings.scan.extensions
      (s.project.sourceDir.under names) entries).hasSources = false := by
    rw [Bool.eq_false_iff, ne_eq,
      Listing.hasSources_iff (Path.text_under_ne hroot hplain) hwf hfind]
    rintro ⟨name, content, hfile, hname⟩
    exact hnone name content hfile hname
  rw [inspect, Listing.read_of_node? (FileSystem.node?_under hplain hnode hfind hfits)]
  simp only [hsources, Bool.false_eq_true, ↓reduceIte]

namespace Project

namespace EditsIdleManifest

variable {p : Project} {dir names : List String} {fs fs' : FileSystem} {tree tree' : FileTree}
  {entries : List (String × FileTree)} (h : p.EditsIdleManifest dir fs fs' tree tree')
include h

/-- The idle manifest is not read. -/
theorem ne_of_readsManifest (hreads : p.ReadsManifest fs tree names) :
    names ≠ dir ∧ ∃ entries, tree.find? names = some (.dir entries) := by
  cases hreads with
  | own hmakes =>
    refine ⟨?_, hmakes.exists_dir⟩
    rintro rfl
    obtain ⟨name, content, hfile, hname⟩ := hmakes.holds_source
    exact h.sourceless name content hfile hname
  | @owner below m hmakes hload hexe hlast =>
    have hne : below ≠ [] := by
      rintro rfl
      simp at hlast
    obtain ⟨entries, hdir⟩ := hmakes.exists_dir
    refine ⟨?_, FileTree.exists_dir_dropLast hne hdir⟩
    rintro rfl
    rw [List.getLast?_eq_some_getLast hne, Option.some.injEq, Option.some.injEq] at hlast
    rw [← List.dropLast_append_getLast hne] at hmakes hload
    obtain ⟨htest, hscript⟩ := h.no_runnable _ m hmakes hload hexe
    exact hlast.elim htest hscript

/-- **The manifests that count** say the same in both trees, for the one that
differs is not read. -/
theorem manifestOf_eq (hreads : p.ReadsManifest fs tree names) :
    p.manifestOf fs names = p.manifestOf fs' names := by
  obtain ⟨hne, entries, hdir⟩ := h.ne_of_readsManifest hreads
  exact manifestOf_eq_of_sameBut h.node h.node' h.wellFormed h.manifest h.same hdir hne

/-- **What is found in a directory** is the same in both trees: no sources where the
idle manifest stands, and elsewhere the same manifests. -/
theorem inspect_eq {patterns : List Pattern}
    (hpatterns : parseExcludes p.settings.scan.exclude = .ok patterns)
    (hdir : tree.find? names = some (.dir entries))
    (hkeeps : KeepsTo (Scanner.keeps ⟨p, patterns⟩) p.sourceDir names)
    (hfits : FileSystem.refusal? (p.sourceDir.under names) = none) :
    Scanner.inspect ⟨p, patterns⟩ fs (p.sourceDir.under names) =
      Scanner.inspect ⟨p, patterns⟩ fs' (p.sourceDir.under names) := by
  obtain ⟨entries', hdir'⟩ := (h.same.directories names).mp ⟨entries, hdir⟩
  by_cases hne : names = dir
  · subst hne
    rw [Scanner.inspect_of_sourceless h.node h.wellFormed hdir hfits h.sourceless,
      Scanner.inspect_of_sourceless h.node' h.wellFormed' hdir' hfits h.sourceless']
  · refine Scanner.inspect_under_congr hpatterns h.node h.wellFormed hdir hkeeps hfits ?_
      fun place => h.manifestOf_eq
    have hplain := h.wellFormed.isPlain_of_find? hdir
    rw [Listing.read_of_node? (FileSystem.node?_under hplain h.node hdir hfits),
      Listing.read_of_node? (FileSystem.node?_under hplain h.node' hdir' hfits),
      h.same.ofEntries_eq h.wellFormed h.wellFormed' hdir hdir' hne]

/-- **Both trees are surveyed alike**: the same directories are walked, and the same
is found in each. -/
theorem survey_eq : p.survey fs = p.survey fs' := by
  cases hpatterns : parseExcludes p.settings.scan.exclude with
  | error fault => rw [survey, survey, Scanner.ofProject, hpatterns]
  | ok patterns =>
    rw [survey_of_patterns hpatterns, survey_of_patterns hpatterns]
    have hwalk := h.same.walk_eq h.wellFormed h.wellFormed'
      (Scanner.keeps ⟨p, patterns⟩) p.sourceDir
    exact Scanner.survey_eq_of_walk_eq h.node h.wellFormed h.node' hwalk
      fun names entries => h.inspect_eq hpatterns

end EditsIdleManifest

variable {p : Project} {dir : List String} {fs fs' : FileSystem} {tree tree' : FileTree}

/-- **An idle manifest is inert.** Whatever it says, and when it is missing, a run
has the same outcome: the same report or the same error, with the same lines in the
journal. -/
theorem generate_of_editsIdleManifest (h : p.EditsIdleManifest dir fs fs' tree tree') :
    p.generate fs = p.generate fs' ∧
    ∀ compact, (Command.generate fs p none compact).result =
        (Command.generate fs' p none compact).result ∧
      (Command.generate fs p none compact).lines = (Command.generate fs' p none compact).lines := by
  have hsurvey := h.survey_eq
  refine ⟨by rw [generate, generate, scanSeeded, scanSeeded, hsurvey], fun compact => ?_⟩
  simp only [Command.generate, hsurvey]
  cases p.catalogOf (p.survey fs') with
  | error e => exact ⟨rfl, rfl⟩
  | ok catalog =>
    dsimp only
    cases p.reportOf catalog with
    | error fault => exact ⟨rfl, rfl⟩
    | ok report => exact ⟨rfl, rfl⟩

/-! ### Above an executable of the name of a test -/

/-- The entries of a directory without sources, with a manifest or without one.
Below it stands a source in a directory of the name of a test, whose manifest makes
it an executable. -/
def docsEntries (manifest : Option ByteArray) : List (String × FileTree) :=
  manifest.toList.map (("build.mk", .file ·)) ++
    [("test", .dir (targetEntries "EXE := demo".toUTF8 []))]

def docsTree (manifest : Option ByteArray) : FileTree :=
  .dir [("docs", .dir (docsEntries manifest))]

def docsFiles (manifest : Option ByteArray) : FileSystem where
  tree := .dir [("src", docsTree manifest)]

theorem node?_docs (manifest : Option ByteArray) :
    (docsFiles manifest).node? tool.sourceDir = .ok (docsTree manifest) := by rfl

theorem wellFormed_docsTree (manifest : Option ByteArray) : (docsTree manifest).WellFormed := by
  have hdocs : (FileTree.dir (docsEntries manifest)).WellFormed := by
    cases manifest with
    | none =>
      refine .dir (by decide : ["test"].Nodup) ?_ ?_
      · simpa [docsEntries] using (by decide)
      · simpa [docsEntries] using wellFormed_targetEntries _
    | some content =>
      refine .dir (by decide : ["build.mk", "test"].Nodup) ?_ ?_
      · simpa [docsEntries] using (by decide)
      · simpa [docsEntries] using ⟨.file content, wellFormed_targetEntries _⟩
  refine .dir (List.nodup_singleton "docs") ?_ ?_
  · simpa using (by decide)
  · simpa using hdocs

/-- What is found in the directory is one of its entries. -/
theorem mem_docsEntries_of_find? {manifest : Option ByteArray} {name : String} {node : FileTree}
    (h : (docsTree manifest).find? ["docs", name] = some node) :
    (name, node) ∈ docsEntries manifest := by
  have hdir : (docsTree manifest).find? ["docs"] = some (.dir (docsEntries manifest)) := rfl
  exact ((wellFormed_docsTree manifest).find?_concat_iff hdir).mp h

theorem eq_test_of_find? {manifest : Option ByteArray} {name : String}
    {entries : List (String × FileTree)}
    (h : (docsTree manifest).find? ["docs", name] = some (.dir entries)) : name = "test" := by
  have hmem := mem_docsEntries_of_find? h
  cases manifest <;> simp_all [docsEntries]

/-- The one file in the directory is its manifest, which is no source. -/
theorem sourceless_docs {manifest : Option ByteArray} {name : String} {content : ByteArray}
    (h : (docsTree manifest).find? ["docs", name] = some (.file content)) :
    ¬ tool.settings.scan.extensions.IsSourceName name := by
  have hother : tool.settings.scan.extensions.kindOf ((⟨"/src"⟩ : Path).child "build.mk") ≠
      .source := by
    decide
  have hmem := mem_docsEntries_of_find? h
  obtain rfl : name = "build.mk" := by
    cases manifest <;> simp_all [docsEntries]
  rwa [ne_eq, Extensions.kindOf_child_eq_source_iff (by decide) (by decide)] at hother

/-- A manifest that is no text. -/
def garbled : ByteArray := ⟨#[0xFF]⟩

theorem editsIdleManifest_docs :
    tool.EditsIdleManifest ["docs"] (docsFiles garbled) (docsFiles none) (docsTree garbled)
      (docsTree none) where
  node := node?_docs _
  node' := node?_docs _
  wellFormed := wellFormed_docsTree _
  wellFormed' := wellFormed_docsTree _
  manifest := by decide
  same := FileTree.sameBut_entry (FileTree.sameBut_missing _ rfl) [] [] rfl
  sourceless := fun _ _ => sourceless_docs
  sourceless' := fun _ _ => sourceless_docs
  no_runnable := by
    intro name m hmakes hload hexe
    obtain ⟨entries, hdir⟩ := hmakes.exists_dir
    obtain rfl := eq_test_of_find? hdir
    have hdemo : tool.manifestOf (docsFiles garbled) ["docs", "test"] =
        .ok { executable := some "demo" } := by decide +kernel
    rw [← Except.ok.inj (hdemo.symm.trans hload)] at hexe
    contradiction

def docsWalk : List Path := [⟨"/src"⟩, ⟨"/src/docs"⟩, ⟨"/src/docs/test"⟩]

theorem survey_docs : tool.survey (docsFiles none) =
    .ok ⟨docsWalk.map (Scanner.inspect ⟨tool, []⟩ (docsFiles none))⟩ := by
  have hwalk : walk (Scanner.keeps ⟨tool, []⟩) tool.sourceDir (docsTree none) = docsWalk := by
    have htest : ∀ path, walk (Scanner.keeps ⟨tool, []⟩) path (.dir (docsEntries none)) =
        path :: if Scanner.keeps ⟨tool, []⟩ (path.child "test") then [path.child "test"] else [] := by
      intro path
      have hsorted : ((docsEntries none).map Prod.fst).Pairwise (· ≤ ·) :=
        List.pairwise_singleton _ "test"
      rw [walk_dir_of_sorted hsorted]
      simp [docsEntries, walkEntries, walk_targetEntries]
    rw [docsTree, walk_dir_of_sorted (List.pairwise_singleton _ "docs"), walkEntries, htest]
    decide +kernel
  have hfits : ∀ dir ∈ docsWalk, FileSystem.refusal? dir = none := by decide +kernel
  exact survey_of_walk rfl (node?_docs none) hwalk hfits

/-- There is something to report: the source below makes a target. -/
theorem exists_report_docs :
    ∃ r, tool.generate (docsFiles none) = .ok r ∧ r.solution.size = 1 := by
  have hfound : (Survey.gather (docsWalk.map
      (Scanner.inspect ⟨tool, []⟩ (docsFiles none)))).toOption.map (List.map Candidate.row) =
        some [⟨"docs/test", "demo", .executable, { executable := some "demo" }, none⟩] := by
    decide +kernel
  obtain ⟨catalog, s, -, hrows, hassemble, h⟩ := exists_report_of_scan rfl (by decide +kernel)
    (exists_catalog_of_rows survey_docs hfound (.refl _) (by decide) (by decide))
  exact ⟨_, h, Solution.size_eq_of_rows hassemble hrows⟩

/-- A manifest that is no text is passed over where no source stands beside it,
above a directory that only has the name of a test. -/
theorem generate_of_editsIdleManifest_docs :
    tool.EditsIdleManifest ["docs"] (docsFiles garbled) (docsFiles none) (docsTree garbled)
      (docsTree none) ∧
    ∃ r, tool.generate (docsFiles garbled) = .ok r ∧ tool.generate (docsFiles none) = .ok r ∧
      r.solution.size = 1 := by
  obtain ⟨r, hr, hsize⟩ := exists_report_docs
  obtain ⟨hsame, -⟩ := generate_of_editsIdleManifest editsIdleManifest_docs
  exact ⟨editsIdleManifest_docs, r, hsame.trans hr, hr, hsize⟩

end Project

end SolutionTree
