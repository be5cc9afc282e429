import Mathlib.Data.List.Permutation
import Mathlib.Data.Set.Card
import SolutionTree.Proofs.Catalog
import SolutionTree.Proofs.Identifier.Counting
import SolutionTree.Proofs.Scan.Reading
import SolutionTree.Proofs.Sorting
import SolutionTree.Proofs.Text.Bytes

/-!
The identifiers that a scan gives.

A scan draws one identifier for each target and nothing else (`ids_of_scan`), and
lists its targets in the order of their directories' texts
(`directories_of_scan_sorted`). So the identifier of a target is as many steps away
from the seed as there are directories that make targets, up to its own, and that
number depends on no kind, no name and no walk (`identifiers_of_scan`).
-/

namespace SolutionTree

/-! ### Draws -/

namespace Identifier.Supply

theorem take_snd (supply : Supply) (n : Nat) : (supply.take n).2 = supply.skip n := by
  induction n generalizing supply with
  | zero => rfl
  | succ n ih =>
    rw [take, skip_succ]
    exact ih supply.draw.2

/-- The `i`-th draw is `i + 1` steps behind the supply, counted around after all
ones. -/
theorem value_getElem_take (supply : Supply) {n i : Nat} (h : i < (supply.take n).1.length) :
    (supply.take n).1[i].value = (supply.current.value + (i + 1)) % 2 ^ 128 := by
  simp only [take_eq_map_skip, List.getElem_map, List.getElem_range, value_skip]

end Identifier.Supply

/-! ### Candidates and their targets -/

section Numbered

variable {candidates : List Candidate} {ids : List Identifier}

theorem map_id_withId (h : ids.length = candidates.length) :
    (List.zipWith Candidate.withId candidates ids).map Target.id = ids := by
  rw [List.map_zipWith, ← List.map_uncurry_zip_eq_zipWith]
  exact List.map_snd_zip h.le

/-- What candidates tell of their targets does not hang on the identifiers. -/
theorem map_withId {β : Type} {f : Target → β} {g : Candidate → β}
    (hfg : ∀ c id, f (c.withId id) = g c) (h : ids.length = candidates.length) :
    (List.zipWith Candidate.withId candidates ids).map f = candidates.map g := by
  have hfirst := List.map_fst_zip h.ge
  rw [List.map_zipWith, ← List.map_uncurry_zip_eq_zipWith]
  conv_rhs => rw [← hfirst, List.map_map]
  exact List.map_congr_left fun pair _ => hfg pair.1 pair.2

theorem map_relativeDir_withId (h : ids.length = candidates.length) :
    (List.zipWith Candidate.withId candidates ids).map Target.relativeDir =
      candidates.map Candidate.relativeDir :=
  map_withId (fun _ _ => rfl) h

end Numbered

/-- Candidates stand in the order of the texts of their directories, which is not
that of the walk. -/
theorem Survey.pairwise_relativeDir {v : Survey} {candidates : List Candidate}
    (h : v.candidates = .ok candidates) :
    candidates.Pairwise fun a b => a.relativeDir ≤ b.relativeDir := by
  obtain ⟨findings, -, rfl⟩ := candidates_eq_ok h
  exact Sorting.pairwise_sortBy Candidate.relativeDir _

namespace Project

variable {project : Project} {fs : FileSystem} {tree : FileTree} {catalog : Catalog}
  {supply supply' : Identifier.Supply}

/-! ### Scans -/

/-- The survey that a scan comes of, and its candidates, each with the next
identifier. -/
theorem exists_candidates_of_scan (h : project.scan fs supply = (.ok catalog, supply')) :
    ∃ (v : Survey) (candidates : List Candidate), v.candidates = .ok candidates ∧
      catalog.targets =
        List.zipWith Candidate.withId candidates (supply.take candidates.length).1 ∧
      supply' = (supply.take candidates.length).2 := by
  obtain ⟨v, candidates, -, hcandidates, henroll⟩ := scan_eq_ok_iff_enroll.mp h
  obtain ⟨htargets, hsupply⟩ := enroll_eq_ok henroll
  exact ⟨v, candidates, hcandidates, by simpa using htargets, hsupply⟩

/-- A scan draws the identifiers of its targets, in their order, and no others. So
the supply is left at the last one. -/
theorem ids_of_scan (h : project.scan fs supply = (.ok catalog, supply')) :
    catalog.targets.map Target.id = (supply.take catalog.size).1 ∧
      supply' = supply.skip catalog.size := by
  obtain ⟨v, candidates, -, htargets, rfl⟩ := exists_candidates_of_scan h
  have hlength := supply.length_take candidates.length
  have hids := map_id_withId hlength
  have hsize : catalog.size = candidates.length := by
    rw [Catalog.size_eq_length, htargets, ← List.length_map Target.id, hids, hlength]
  rw [hsize, htargets]
  exact ⟨hids, supply.take_snd _⟩

/-- A scan lists its targets in the order of their directories' texts. -/
theorem directories_of_scan_sorted (h : project.scan fs supply = (.ok catalog, supply')) :
    catalog.directories.Pairwise (· ≤ ·) := by
  obtain ⟨v, candidates, hcandidates, htargets, -⟩ := exists_candidates_of_scan h
  have hdirs := map_relativeDir_withId (supply.length_take candidates.length)
  rw [Catalog.directories, htargets, hdirs]
  exact List.pairwise_map.mpr (Survey.pairwise_relativeDir hcandidates)

section WellFormed

variable (htree : fs.node? project.sourceDir = .ok tree) (hwf : tree.WellFormed)
  (h : project.scan fs supply = (.ok catalog, supply'))
include htree hwf h

/-- The directories of targets are those that make targets, and no other. -/
theorem mem_directories_of_scan_iff {text : String} :
    text ∈ catalog.directories ↔ ∃ names, project.MakesTarget tree names ∧
      Path.dirText names = text := by
  obtain ⟨s, candidates, rfl, hs, htargets, -⟩ := scan_eq_ok htree h
  have hdirs : catalog.directories = candidates.map Candidate.relativeDir := by
    rw [Catalog.directories, htargets]
    exact map_relativeDir_withId (supply.length_take _)
  rw [hdirs, List.mem_map]
  constructor
  · rintro ⟨c, hc, rfl⟩
    obtain ⟨names, hnames, hinspect⟩ := hs.makesTarget_of_mem hwf hc
    exact ⟨names, hnames, (hs.describes_of_inspect hwf hnames .nil hinspect).relativeDir.symm⟩
  · rintro ⟨names, hnames, rfl⟩
    obtain ⟨c, hc, hinspect⟩ := hs.exists_candidate hwf hnames
    exact ⟨c, hc, (hs.describes_of_inspect hwf hnames .nil hinspect).relativeDir⟩

/-- No two targets come of one directory: they would have one name. -/
theorem nodup_directories_of_scan : catalog.directories.Nodup := by
  obtain ⟨s, candidates, rfl, hs, htargets, -⟩ := scan_eq_ok htree h
  have hnames : catalog.targets.Pairwise fun t u => t.name ≠ u.name :=
    List.pairwise_map.mp catalog.distinct
  refine List.pairwise_map.mpr (hnames.imp_of_mem ?_)
  intro t u ht hu hne hdir
  rw [htargets] at ht hu
  obtain ⟨c, hc, id, rfl⟩ := exists_candidate_of_mem ht
  obtain ⟨c', hc', id', rfl⟩ := exists_candidate_of_mem hu
  obtain ⟨above, habove, hinspect⟩ := hs.makesTarget_of_mem hwf hc
  obtain ⟨above', habove', hinspect'⟩ := hs.makesTarget_of_mem hwf hc'
  have htext := (hs.describes_of_inspect hwf habove id hinspect).relativeDir
  have htext' := (hs.describes_of_inspect hwf habove' id' hinspect').relativeDir
  obtain rfl : above = above' :=
    Path.dirText_injective (habove.isPlain hwf) (habove'.isPlain hwf)
      (htext.symm.trans (hdir.trans htext'))
  obtain rfl : c = c' := Finding.target.inj (Except.ok.inj (hinspect.symm.trans hinspect'))
  exact hne rfl

/-- Directories are told apart by their texts, and so their order is strict. -/
theorem directories_of_scan_increasing : catalog.directories.Pairwise (· < ·) := by
  have hnodup := nodup_directories_of_scan htree hwf h
  exact ((directories_of_scan_sorted h).and hnodup).imp fun h => lt_of_le_of_ne h.1 h.2

end WellFormed

/-! ### Ranks -/

/-- How many directories that make targets come no later than a text, in the order
of bytes. -/
noncomputable def rank (project : Project) (tree : FileTree) (text : String) : Nat :=
  {names | project.MakesTarget tree names ∧
    ¬ Text.bytes text < Text.bytes (Path.dirText names)}.ncard

/-- The index of a directory in the catalog is how many directories that make
targets come before it. No list of the directories is needed to say this. -/
theorem rank_eq_of_getElem (htree : fs.node? project.sourceDir = .ok tree) (hwf : tree.WellFormed)
    (h : project.scan fs supply = (.ok catalog, supply')) {i : Nat}
    (hi : i < catalog.directories.length) :
    project.rank tree catalog.directories[i] = i + 1 := by
  have hinc := directories_of_scan_increasing htree hwf h
  have hinj : Set.InjOn Path.dirText {names | project.MakesTarget tree names ∧
      ¬ Text.bytes catalog.directories[i] < Text.bytes (Path.dirText names)} := by
    rintro names ⟨hnames, -⟩ names' ⟨hnames', -⟩ heq
    exact Path.dirText_injective (hnames.isPlain hwf) (hnames'.isPlain hwf) heq
  -- The directories up to the one at `i` are the first ones of the list.
  have himage : Path.dirText '' {names | project.MakesTarget tree names ∧
      ¬ Text.bytes catalog.directories[i] < Text.bytes (Path.dirText names)} =
      (catalog.directories.take (i + 1)).toFinset := by
    ext text
    rw [List.coe_toFinset, Set.mem_ofPred_eq, Sorting.mem_take_succ_iff hinc hi,
      mem_directories_of_scan_iff htree hwf h]
    simp only [Set.mem_image, Set.mem_ofPred_eq, Text.bytes_lt_bytes_iff, not_lt]
    constructor
    · rintro ⟨names, ⟨hnames, hle⟩, rfl⟩
      exact ⟨⟨names, hnames, rfl⟩, hle⟩
    · rintro ⟨⟨names, hnames, rfl⟩, hle⟩
      exact ⟨names, ⟨hnames, hle⟩, rfl⟩
  have hnodup : (catalog.directories.take (i + 1)).Nodup :=
    (hinc.imp ne_of_lt).sublist (List.take_sublist _ _)
  rw [rank, ← hinj.ncard_image, himage, Set.ncard_coe_finset,
    List.toFinset_card_of_nodup hnodup, List.length_take_of_le hi]

/-- **Identifiers follow the order of directories.** A scan that succeeds lists its
targets in the strictly increasing order of their directories' bytes, gives them the
identifiers after the one that the supply stands at, and leaves the supply at the
last of them. The identifier of a target is told by the rank of its directory among
those that make targets. -/
theorem identifiers_of_scan (htree : fs.node? project.sourceDir = .ok tree) (hwf : tree.WellFormed)
    (h : project.scan fs supply = (.ok catalog, supply')) :
    (catalog.targets.Pairwise fun t u => Text.bytes t.relativeDir < Text.bytes u.relativeDir) ∧
    (∀ i (hi : i < catalog.targets.length),
      catalog.targets[i].id.value = (supply.current.value + (i + 1)) % 2 ^ 128) ∧
    supply'.current.value = (supply.current.value + catalog.targets.length) % 2 ^ 128 ∧
    ∀ t ∈ catalog.targets,
      t.id.value = (supply.current.value + project.rank tree t.relativeDir) % 2 ^ 128 := by
  obtain ⟨hids, rfl⟩ := ids_of_scan h
  have hinc := directories_of_scan_increasing htree hwf h
  have hvalue : ∀ i (hi : i < catalog.targets.length),
      catalog.targets[i].id.value = (supply.current.value + (i + 1)) % 2 ^ 128 := by
    intro i hi
    have hlength : i < (supply.take catalog.size).1.length := by rwa [supply.length_take]
    have hget := List.getElem_of_eq hids (i := i) (by rwa [List.length_map])
    rw [List.getElem_map] at hget
    rw [hget, supply.value_getElem_take hlength]
  refine ⟨?_, hvalue, supply.value_skip _, ?_⟩
  · exact (List.pairwise_map.mp hinc).imp fun hlt => Text.bytes_lt_bytes_iff.mpr hlt
  · intro t ht
    obtain ⟨i, hi, rfl⟩ := List.mem_iff_getElem.mp ht
    have hlength : i < catalog.directories.length := by
      rwa [Catalog.directories, List.length_map]
    have hdir : catalog.targets[i].relativeDir = catalog.directories[i] :=
      (List.getElem_map Target.relativeDir).symm
    rw [hvalue i hi, hdir, rank_eq_of_getElem htree hwf h]

/-! ### Scans of trees that are given -/

end Project

/-- What a target shows of the directory that it comes of, its files apart. -/
structure Row where
  relativeDir : String
  name : String
  kind : Target.Kind
  manifest : Manifest := {}
  owner : Option Owner := none
  deriving DecidableEq

def Candidate.row (c : Candidate) : Row :=
  ⟨c.relativeDir, c.name, c.kind, c.manifest, c.owner⟩

def Target.row (t : Target) : Row :=
  ⟨t.relativeDir, t.name, t.kind, t.manifest, t.owner⟩

namespace Project

variable {project : Project} {fs : FileSystem} {v : Survey} {found rows : List Row}

/-- A scan comes to what was found in the directories, put in order. With it the
scan of a given tree is worked out without its sorting. -/
theorem exists_catalog_of_rows (hsurvey : project.survey fs = .ok v)
    (hfound : (Survey.gather v.findings).toOption.map (List.map Candidate.row) = some found)
    (hperm : found.Perm rows) (hsorted : (rows.map Row.relativeDir).Pairwise (· < ·))
    (hnames : (rows.map Row.name).Nodup) (supply : Identifier.Supply) :
    ∃ catalog supply', project.scan fs supply = (.ok catalog, supply') ∧
      catalog.targets.map Target.row = rows := by
  cases hgather : Survey.gather v.findings with
  | error fault =>
    rw [hgather] at hfound
    contradiction
  | ok cs =>
    rw [hgather] at hfound
    obtain rfl : cs.map Candidate.row = found := Option.some.inj hfound
    have hcandidates : v.candidates =
        .ok (cs.mergeSort fun a b => decide (a.relativeDir ≤ b.relativeDir)) := by
      rw [Survey.candidates, hgather]
      rfl
    have hkeys : ((cs.map Candidate.row).map Row.relativeDir).Nodup :=
      (hperm.map Row.relativeDir).nodup_iff.mpr (hsorted.imp ne_of_lt)
    have hrows : (cs.mergeSort fun a b => decide (a.relativeDir ≤ b.relativeDir)).map
        Candidate.row = rows := by
      rw [List.map_mergeSort (r := fun a b : Candidate => decide (a.relativeDir ≤ b.relativeDir))
        (s := fun a b : Row => decide (a.relativeDir ≤ b.relativeDir)) (fun _ _ _ _ => rfl),
        Sorting.sortBy_eq_of_perm hkeys hperm]
      exact List.mergeSort_of_pairwise
        ((List.pairwise_map.mp hsorted).imp fun hlt => decide_eq_true hlt.le)
    have hfree : (Catalog.empty.names ++ (cs.mergeSort fun a b =>
        decide (a.relativeDir ≤ b.relativeDir)).map Candidate.name).Nodup := by
      rw [← hrows, List.map_map] at hnames
      exact hnames
    obtain ⟨catalog, supply', henroll⟩ := exists_catalog_of_nodup supply hfree
    refine ⟨catalog, supply', scan_eq_ok_iff_enroll.mpr ⟨v, _, hsurvey, hcandidates, henroll⟩, ?_⟩
    have hsame := map_withId (f := Target.row) (g := Candidate.row) (fun _ _ => rfl)
      (supply.length_take (cs.mergeSort fun a b => decide (a.relativeDir ≤ b.relativeDir)).length)
    rw [(enroll_eq_ok henroll).1, ← hrows, ← hsame]
    rfl

/-- The entries of a directory that makes a target and has a manifest. -/
def targetEntries (manifest : ByteArray) (more : List (String × FileTree)) :
    List (String × FileTree) :=
  ("build.mk", .file manifest) :: ("m.cpp", .file .empty) :: more

theorem wellFormed_targetEntries (manifest : ByteArray) :
    (FileTree.dir (targetEntries manifest [])).WellFormed := by
  refine .dir (by decide : ["build.mk", "m.cpp"].Nodup) ?_ ?_
  · simpa [targetEntries] using (by decide)
  · simpa [targetEntries] using ⟨.file manifest, .file .empty⟩

theorem walk_targetEntries (keep : Path → Bool) (path : Path) (manifest : ByteArray) :
    walk keep path (.dir (targetEntries manifest [])) = [path] := by
  have hsorted : ((targetEntries manifest []).map Prod.fst).Pairwise (· ≤ ·) :=
    (by decide : ["build.mk", "m.cpp"].Pairwise (· ≤ ·))
  rw [walk_dir_of_sorted hsorted]
  simp [targetEntries, walkEntries, walk]

/-! ### A hyphen before a slash -/

def testedEntries : List (String × FileTree) :=
  [("test", .dir [("t.cpp", .file .empty)]), ("x.cpp", .file .empty)]

/-- A source tree that is walked in another order than its targets are listed in:
the walk comes to `a/test` before `a-b`. -/
def hyphenTree : FileTree :=
  .dir [("a", .dir testedEntries), ("a-b", .dir [("y.cpp", .file .empty)]),
    ("a-old", .dir [("z.cpp", .file .empty)])]

def hyphenFiles : FileSystem where
  tree := .dir [("src", hyphenTree)]

def hyphen : Project where
  root := ⟨"/"⟩
  sourceDir := ⟨"/src"⟩
  outputDir := ⟨"/bin"⟩
  intermediateDir := ⟨"/out"⟩
  settings := { scan := { exclude := ["*old"] } }

def hyphenScanner : Scanner :=
  ⟨hyphen, [⟨[.anyText, .char 'o', .char 'l', .char 'd']⟩]⟩

def hyphenWalk : List Path := [⟨"/src"⟩, ⟨"/src/a"⟩, ⟨"/src/a/test"⟩, ⟨"/src/a-b"⟩]

theorem wellFormed_hyphenTree : hyphenTree.WellFormed := by
  have hsource : ∀ name, Path.isPlain name = true →
      (FileTree.dir [(name, .file .empty)]).WellFormed := by
    intro name hname
    have hplain : ∀ n ∈ [name], Path.isPlain n = true := by simpa using hname
    exact FileTree.wellFormed_nest hplain (.file .empty)
  have htested : (FileTree.dir testedEntries).WellFormed := by
    refine .dir (by decide) (by decide) ?_
    simpa [testedEntries] using ⟨hsource "t.cpp" (by decide), .file .empty⟩
  refine .dir (by decide) (by decide) ?_
  simpa using ⟨htested, hsource "y.cpp" (by decide), hsource "z.cpp" (by decide)⟩

theorem node?_hyphen : hyphenFiles.node? hyphen.sourceDir = .ok hyphenTree := by rfl

theorem survey_hyphen : hyphen.survey hyphenFiles =
    .ok ⟨hyphenWalk.map (hyphenScanner.inspect hyphenFiles)⟩ := by
  have hpatterns : parseExcludes hyphen.settings.scan.exclude = .ok hyphenScanner.excludes := by cbv
  have hbelow : walk hyphenScanner.keeps (hyphenScanner.project.sourceDir.child "a")
      (.dir testedEntries) = [⟨"/src/a"⟩, ⟨"/src/a/test"⟩] := by
    rw [walk_dir_of_sorted (by decide)]
    decide +kernel
  have hwalk : walk hyphenScanner.keeps hyphenScanner.project.sourceDir hyphenTree =
      hyphenWalk := by
    rw [hyphenTree, walk_dir_of_sorted (by decide), walkEntries, hbelow]
    decide +kernel
  have hfits : ∀ dir ∈ hyphenWalk, FileSystem.refusal? dir = none := by decide +kernel
  exact survey_of_walk hpatterns node?_hyphen hwalk hfits

def hyphenLibrary : Row := ⟨"a", "a", .library, {}, none⟩

def hyphenTest : Row := ⟨"a/test", "a_test", .test, {}, some ⟨"a", "a", []⟩⟩

def hyphenBeside : Row := ⟨"a-b", "a-b", .library, {}, none⟩

/-- What the directories of `hyphenTree` make, in the order of the catalog. The walk
finds the test before the second library. -/
def hyphenRows : List Row := [hyphenLibrary, hyphenBeside, hyphenTest]

/-- The tree of `a`, `a/test` and `a-b` is scanned into three targets, in another
order than that of the walk. -/
theorem rows_of_scan_hyphen (supply : Identifier.Supply) :
    ∃ catalog supply', hyphen.scan hyphenFiles supply = (.ok catalog, supply') ∧
      catalog.targets.map Target.row = hyphenRows := by
  have hfound : (Survey.gather (hyphenWalk.map (hyphenScanner.inspect hyphenFiles))).toOption.map
      (List.map Candidate.row) = some [hyphenLibrary, hyphenTest, hyphenBeside] := by decide +kernel
  have hperm : [hyphenLibrary, hyphenTest, hyphenBeside].Perm hyphenRows := by decide
  exact exists_catalog_of_rows survey_hyphen hfound hperm (by decide) (by decide) supply

theorem scan_hyphen (supply : Identifier.Supply) :
    ∃ catalog supply', hyphen.scan hyphenFiles supply = (.ok catalog, supply') ∧
      catalog.directories = ["a", "a-b", "a/test"] := by
  obtain ⟨catalog, supply', hscan, hrows⟩ := rows_of_scan_hyphen supply
  refine ⟨catalog, supply', hscan, ?_⟩
  have hdirs := congrArg (List.map Row.relativeDir) hrows
  rw [List.map_map] at hdirs
  exact hdirs

/-- With all ones as the seed, `a` gets the identifier of value 0, and `a/test` that
of value 2. -/
theorem identifiers_of_scan_hyphen :
    hyphenFiles.node? hyphen.sourceDir = .ok hyphenTree ∧ hyphenTree.WellFormed ∧
    ∃ catalog supply', hyphen.scan hyphenFiles ⟨.ones⟩ = (.ok catalog, supply') ∧
      catalog.directories = ["a", "a-b", "a/test"] ∧
      (∀ i (hi : i < catalog.targets.length), catalog.targets[i].id.value = i) ∧
      supply'.current.value = 2 := by
  obtain ⟨catalog, supply', h, hdirs⟩ := scan_hyphen ⟨.ones⟩
  obtain ⟨-, hids, hend, -⟩ := identifiers_of_scan node?_hyphen wellFormed_hyphenTree h
  have hlength : catalog.targets.length = 3 := by
    rw [← List.length_map Target.relativeDir]
    exact congrArg List.length hdirs
  refine ⟨node?_hyphen, wellFormed_hyphenTree, catalog, supply', h, hdirs, ?_, ?_⟩
  · intro i hi
    rw [hids i hi, Identifier.value_ones]
    omega
  · rw [hend, Identifier.value_ones, hlength]
    rfl

end Project

end SolutionTree
