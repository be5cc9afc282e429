import SolutionTree.Proofs.Manifest.Load
import SolutionTree.Proofs.Scan.Identifiers
import SolutionTree.Proofs.Scan.Reading

/-!
The fault that a scan reports.

Of all that may be wrong with a source tree a scan reports one fault, which
`Reports` says without a walk and without a catalog: the first exclude pattern that
cannot be read; else what is wrong with the manifests of the first directory that is
spoilt by them, names compared one by one (`ComesBefore`, `Spoils`); else the first
name that is taken twice, directories compared as texts (`Clash`). It reports no
other (`scan_eq_error_iff_reports`) and none if nothing is wrong
(`exists_catalog_iff_clear`).
-/

namespace SolutionTree

/-- The order of names that lead to directories, by the bytes of the first ones that
differ; a directory comes before those below it. -/
def ComesBefore : List String → List String → Prop :=
  List.Lex fun a b => Text.bytes a < Text.bytes b

/-- The order of directories is that of the lists of their names, each name compared
by its bytes. -/
theorem comesBefore_iff {names names' : List String} :
    ComesBefore names names' ↔ names < names' := by
  have hlt : (fun a b : String => Text.bytes a < Text.bytes b) = (· < ·) := by
    funext a b
    exact propext Text.bytes_lt_bytes_iff
  rw [ComesBefore, hlt]
  rfl

namespace Project

/-! ### What may be wrong -/

def manifestPath (project : Project) (names : List String) : Path :=
  (project.sourceDir.under names).child project.settings.layout.manifest

/-- What is wrong with the manifest of a directory: it is there but cannot be read,
or one of its lines is malformed. -/
inductive BadManifest (project : Project) (fs : FileSystem) (names : List String) :
    Fault → Prop where
  | unreadable {cause : IoError} :
      fs.readText (project.manifestPath names) = .error cause → cause ≠ .notFound →
      BadManifest project fs names (.manifestUnreadable (project.manifestPath names) cause)
  | malformed {text : String} {e : Manifest.ParseError} :
      fs.readText (project.manifestPath names) = .ok text →
      Manifest.parse project.includeBase text = .error e →
      BadManifest project fs names
        (.manifestMalformed (project.manifestPath names) e.line e.problem.message)

/-- What keeps a directory from making its target: its own manifest, or else, for a
test or a script, the manifest of the directory above. -/
inductive Spoils (project : Project) (fs : FileSystem) (tree : FileTree) (names : List String) :
    Fault → Prop where
  | own {fault : Fault} :
      project.MakesTarget tree names → project.BadManifest fs names fault →
      Spoils project fs tree names fault
  | owner {manifest : Manifest} {fault : Fault} :
      project.MakesTarget tree names → project.manifestOf fs names = .ok manifest →
      manifest.executable = none →
      (names.getLast? = some project.settings.scan.testName ∨
        names.getLast? = some project.settings.scan.scriptName) →
      project.BadManifest fs names.dropLast fault →
      Spoils project fs tree names fault

/-- What the target of a directory is called: what its manifest says, or else the
name that the directory gives. -/
def Calls (project : Project) (fs : FileSystem) (names : List String) (name : String) : Prop :=
  ∃ manifest, project.manifestOf fs names = .ok manifest ∧
    name = manifest.executable.getD (project.nameOf names)

/-- Two directories whose targets are called the same, the first one less than the
second in the order of their bytes. -/
structure Clash (project : Project) (fs : FileSystem) (tree : FileTree) (name : String)
    (first second : List String) : Prop where
  makes_first : project.MakesTarget tree first
  makes_second : project.MakesTarget tree second
  earlier : Text.bytes (Path.dirText first) < Text.bytes (Path.dirText second)
  calls_first : project.Calls fs first name
  calls_second : project.Calls fs second name

/-- Whether all exclude patterns of a project can be read. -/
def PatternsRead (project : Project) : Prop :=
  ∀ text ∈ project.settings.scan.exclude, ∃ pattern, Pattern.parse text = .ok pattern

/-- The fault that a scan reports. -/
inductive Reports (project : Project) (fs : FileSystem) (tree : FileTree) : Fault → Prop where
  | pattern {before after : List String} {text : String} {e : Pattern.ParseError} :
      project.settings.scan.exclude = before ++ text :: after →
      (∀ earlier ∈ before, ∃ pattern, Pattern.parse earlier = .ok pattern) →
      Pattern.parse text = .error e →
      Reports project fs tree (.invalidPattern text e)
  | manifest {names : List String} {fault : Fault} :
      project.PatternsRead → project.Spoils fs tree names fault →
      (∀ names' fault', project.Spoils fs tree names' fault' → ¬ ComesBefore names' names) →
      Reports project fs tree fault
  | clash {name : String} {first second : List String} :
      project.PatternsRead → (∀ names fault, ¬ project.Spoils fs tree names fault) →
      project.Clash fs tree name first second →
      (∀ name' first' second', project.Clash fs tree name' first' second' →
        ¬ Text.bytes (Path.dirText second') < Text.bytes (Path.dirText second)) →
      Reports project fs tree
        (.duplicateTarget name (project.sourceDir.under first) (project.sourceDir.under second))

/-- Whether every directory of a source tree that is not excluded can be listed by
its path. -/
def Listable (project : Project) (tree : FileTree) : Prop :=
  ∀ names entries, tree.find? names = some (.dir entries) →
    (∀ above, above ≠ [] → above <+: names → ¬ project.Excludes above) →
    FileSystem.refusal? (project.sourceDir.under names) = none

variable {project : Project} {fs : FileSystem} {tree : FileTree} {names : List String}
  {fault : Fault}

/-- A manifest is bad when loading it gives a fault, and the fault is that one. -/
theorem badManifest_iff :
    project.BadManifest fs names fault ↔ project.manifestOf fs names = .error fault := by
  rw [manifestOf, Manifest.load_eq_error_iff]
  constructor
  · rintro (⟨hread, hcause⟩ | ⟨hread, hparse⟩)
    · exact .inl ⟨_, hread, hcause, rfl⟩
    · exact .inr ⟨_, _, hread, hparse, rfl⟩
  · rintro (⟨cause, hread, hcause, rfl⟩ | ⟨text, e, hread, hparse, rfl⟩)
    · exact .unreadable hread hcause
    · exact .malformed hread hparse

theorem Spoils.makesTarget (h : project.Spoils fs tree names fault) :
    project.MakesTarget tree names := by
  cases h with
  | own hmakes hbad => exact hmakes
  | owner hmakes hload hexe hlast hbad => exact hmakes

theorem Calls.unique {name name' : String} (h : project.Calls fs names name)
    (h' : project.Calls fs names name') : name = name' := by
  obtain ⟨manifest, hload, rfl⟩ := h
  obtain ⟨manifest', hload', rfl⟩ := h'
  rw [Except.ok.inj (hload.symm.trans hload')]

end Project

/-! ### Spoilt directories -/

namespace Scanner

variable {s : Scanner} {fs : FileSystem} {tree : FileTree} {names : List String}
  {entries : List (String × FileTree)} {fault : Fault} {candidates : List Candidate}

section Walked

variable (hpatterns : parseExcludes s.project.settings.scan.exclude = .ok s.excludes)
  (hnode : fs.node? s.project.sourceDir = .ok tree) (hwf : tree.WellFormed)
  (hlisted : s.project.Listable tree)
include hpatterns hnode hwf

/-- The directories that a walk comes to are listed if those that are not excluded
are. -/
theorem listable_iff : s.project.Listable tree ↔
    ∀ dir ∈ walk s.keeps s.project.sourceDir tree, FileSystem.refusal? dir = none := by
  have hroot := FileSystem.text_ne_of_refusal? (FileSystem.node?_eq_ok_iff.mp hnode).1
  constructor
  · intro hlisted dir hdir
    obtain ⟨names, entries, hfind, hkeeps, rfl⟩ := (mem_walk_iff hwf).mp hdir
    have hplain := hwf.isPlain_of_find? hfind
    exact hlisted names entries hfind ((keepsTo_keeps_iff hplain hpatterns hroot).mp hkeeps)
  · intro hfits names entries hfind hkept
    have hplain := hwf.isPlain_of_find? hfind
    have hkeeps := (keepsTo_keeps_iff hplain hpatterns hroot).mpr hkept
    exact hfits _ ((mem_walk_iff hwf).mpr ⟨names, entries, hfind, hkeeps, rfl⟩)

include hlisted

/-- Looking at a directory fails where it is spoilt, and with the fault that spoils
it. -/
theorem inspect_eq_error_iff (hfind : tree.find? names = some (.dir entries))
    (hkeeps : KeepsTo s.keeps s.project.sourceDir names) :
    s.inspect fs (s.project.sourceDir.under names) = .error fault ↔
      s.project.Spoils fs tree names fault := by
  have hplain := hwf.isPlain_of_find? hfind
  have hroot := FileSystem.text_ne_of_refusal? (FileSystem.node?_eq_ok_iff.mp hnode).1
  have hkept := (keepsTo_keeps_iff hplain hpatterns hroot).mp hkeeps
  have hsources := hasSources_iff_makesTarget hpatterns hroot hwf hfind hkeeps
  unfold inspect
  rw [Listing.read_of_node?
    (FileSystem.node?_under hplain hnode hfind (hlisted names entries hfind hkept))]
  dsimp only
  by_cases hmakes : s.project.MakesTarget tree names
  · rw [if_pos (hsources.mpr hmakes)]
    have hcandidate : ∀ files, (s.candidateOf fs (s.project.sourceDir.under names) files).map
        Finding.target = .error fault ↔
          s.candidateOf fs (s.project.sourceDir.under names) files = .error fault := by
      intro files
      cases s.candidateOf fs (s.project.sourceDir.under names) files <;> simp [Except.map]
    rw [hcandidate, candidateOf_eq_error_iff hplain hroot]
    constructor
    · rintro (hown | ⟨manifest, hload, hexe, hlast, howner⟩)
      · exact .own hmakes (Project.badManifest_iff.mpr hown)
      · exact .owner hmakes hload hexe hlast (Project.badManifest_iff.mpr howner)
    · rintro (⟨-, hbad⟩ | ⟨-, hload, hexe, hlast, hbad⟩)
      · exact .inl (Project.badManifest_iff.mp hbad)
      · exact .inr ⟨_, hload, hexe, hlast, Project.badManifest_iff.mp hbad⟩
  · rw [if_neg (mt hsources.mp hmakes)]
    simp only [reduceCtorEq, false_iff]
    exact fun h => hmakes h.makesTarget

/-- **What is gathered fails** at the first directory that is spoilt, in the order
of the walk, which is that of components. -/
theorem gather_eq_error_iff (fault : Fault) :
    Survey.gather ((walk s.keeps s.project.sourceDir tree).map (s.inspect fs)) = .error fault ↔
      ∃ names, s.project.Spoils fs tree names fault ∧
        ∀ names' fault', s.project.Spoils fs tree names' fault' → ¬ ComesBefore names' names := by
  have hroot := FileSystem.text_ne_of_refusal? (FileSystem.node?_eq_ok_iff.mp hnode).1
  obtain ⟨places, hplaces⟩ := exists_walksTo hwf s.keeps s.project.sourceDir
  have hspoils : ∀ names ∈ places, ∀ fault,
      s.inspect fs (s.project.sourceDir.under names) = .error fault ↔
        s.project.Spoils fs tree names fault := by
    intro names hnames fault
    obtain ⟨⟨entries, hfind⟩, hkeeps⟩ := (hplaces.mem_iff names).mp hnames
    exact inspect_eq_error_iff hpatterns hnode hwf hlisted hfind hkeeps
  have hmem : ∀ {names fault}, s.project.Spoils fs tree names fault → names ∈ places := by
    intro names fault h
    have hplain := h.makesTarget.isPlain hwf
    exact (hplaces.mem_iff names).mpr ⟨h.makesTarget.exists_dir,
      (keepsTo_keeps_iff hplain hpatterns hroot).mpr h.makesTarget.kept⟩
  have hsorted : places.Pairwise fun a b => id a < id b := hplaces.increasing
  rw [hplaces.paths, List.map_map, Survey.gather_eq_error_iff, Sorting.exists_first_map_iff,
    Sorting.exists_first_iff hsorted]
  constructor
  · rintro ⟨names, hnames, hspoilt, hless⟩
    refine ⟨names, (hspoils names hnames fault).mp hspoilt, fun names' fault' h' hbefore => ?_⟩
    obtain ⟨finding, hfinding⟩ := hless names' (hmem h') (comesBefore_iff.mp hbefore)
    have hspoilt' := (hspoils names' (hmem h') fault').mpr h'
    rw [Function.comp_apply, hspoilt'] at hfinding
    contradiction
  · rintro ⟨names, hspoilt, hfirst⟩
    refine ⟨names, hmem hspoilt, (hspoils names (hmem hspoilt) fault).mpr hspoilt, ?_⟩
    intro names' hnames' hlt
    cases h' : s.inspect fs (s.project.sourceDir.under names') with
    | ok finding => exact ⟨finding, h'⟩
    | error fault' =>
      exact absurd (comesBefore_iff.mpr hlt) (hfirst _ _ ((hspoils names' hnames' fault').mp h'))

end Walked
end Scanner

/-! ### Clashes -/

namespace Scanner

variable {s : Scanner} {fs : FileSystem} {tree : FileTree} {names : List String} {fault : Fault}
  {candidates : List Candidate} {c : Candidate}

/-- The candidate of a directory that makes a target, as far as it counts for a
clash. -/
structure Stands (s : Scanner) (fs : FileSystem) (tree : FileTree) (names : List String)
    (c : Candidate) : Prop where
  makes : s.project.MakesTarget tree names
  relativeDir : c.relativeDir = Path.dirText names
  calls : s.project.Calls fs names c.name
  path : c.files.path = s.project.sourceDir.under names

theorem Stands.bytes_lt_iff {names' : List String} {c' : Candidate} (h : s.Stands fs tree names c)
    (h' : s.Stands fs tree names' c') :
    Text.bytes (Path.dirText names) < Text.bytes (Path.dirText names') ↔
      c.relativeDir < c'.relativeDir := by
  rw [Text.bytes_lt_bytes_iff, h.relativeDir, h'.relativeDir]

namespace Surveyed

variable (hs : s.Surveyed fs tree candidates)
include hs

theorem relativeDir_of_inspect (hplain : ∀ name ∈ names, Path.isPlain name = true)
    (h : s.inspect fs (s.project.sourceDir.under names) = .ok (.target c)) :
    c.relativeDir = Path.dirText names := by
  obtain ⟨files, -, ⟨-, c', hcandidate, heq⟩ | ⟨-, hskipped⟩⟩ := inspect_eq_ok h
  · obtain rfl := Finding.target.inj heq
    obtain ⟨manifest, owner, -, rfl, -, -⟩ := candidateOf_eq_ok hcandidate
    exact textOf_under hplain hs.root_ne
  · contradiction

variable (hwf : tree.WellFormed)
include hwf

/-- What a scan finds in a directory that makes a target is the candidate that
stands for it. -/
theorem stands_of_inspect (hmakes : s.project.MakesTarget tree names)
    (h : s.inspect fs (s.project.sourceDir.under names) = .ok (.target c)) :
    s.Stands fs tree names c := by
  have hdescribes := hs.describes_of_inspect hwf hmakes .nil h
  refine ⟨hmakes, hdescribes.relativeDir,
    ⟨_, hdescribes.manifest, hdescribes.classified.name_eq⟩, ?_⟩
  obtain ⟨files, hread, ⟨-, c', hcandidate, heq⟩ | ⟨-, hskipped⟩⟩ := inspect_eq_ok h
  · obtain rfl := Finding.target.inj heq
    obtain ⟨manifest, owner, -, rfl, -, -⟩ := candidateOf_eq_ok hcandidate
    exact Listing.path_of_read hread
  · contradiction

/-- Every directory that makes a target has a candidate, once all manifests can be
read. -/
theorem exists_stands (hmakes : s.project.MakesTarget tree names) :
    ∃ c ∈ candidates, s.Stands fs tree names c := by
  obtain ⟨c, hc, hinspect⟩ := hs.exists_candidate hwf hmakes
  exact ⟨c, hc, hs.stands_of_inspect hwf hmakes hinspect⟩

/-- Every candidate is that of a directory that makes a target. -/
theorem stands_of_mem (hc : c ∈ candidates) : ∃ names, s.Stands fs tree names c := by
  obtain ⟨names, hmakes, hinspect⟩ := hs.makesTarget_of_mem hwf hc
  exact ⟨names, hs.stands_of_inspect hwf hmakes hinspect⟩

/-- No directory is spoilt if candidates are found. -/
theorem not_spoils : ¬ s.project.Spoils fs tree names fault := by
  intro h
  have hplain := h.makesTarget.isPlain hwf
  have hlisted := (listable_iff hs.patterns hs.node hwf).mpr hs.fits
  have hkeeps := (keepsTo_keeps_iff hplain hs.patterns hs.root_ne).mpr h.makesTarget.kept
  obtain ⟨entries, hfind⟩ := h.makesTarget.exists_dir
  obtain ⟨c, -, hinspect⟩ := hs.exists_candidate hwf h.makesTarget
  rw [(inspect_eq_error_iff hs.patterns hs.node hwf hlisted hfind hkeeps).mpr h] at hinspect
  contradiction

/-- Candidates stand in the strictly increasing order of their directories' texts.
-/
theorem candidates_increasing : candidates.Pairwise fun a b => a.relativeDir < b.relativeDir := by
  obtain ⟨places, hplaces⟩ := exists_walksTo hwf s.keeps s.project.sourceDir
  obtain ⟨findings, hfindings, rfl⟩ := Survey.candidates_eq_ok hs.found
  have hplain : ∀ names ∈ places, ∀ name ∈ names, Path.isPlain name = true := by
    intro names hnames
    obtain ⟨⟨entries, hfind⟩, -⟩ := (hplaces.mem_iff names).mp hnames
    exact hwf.isPlain_of_find? hfind
  have hfound : findings.filterMap Finding.candidate? = places.filterMap fun names =>
      Survey.foundIn (s.inspect fs (s.project.sourceDir.under names)) := by
    rw [← Survey.filterMap_foundIn, ← hfindings, hplaces.paths, List.map_map, List.filterMap_map]
    rfl
  refine Sorting.pairwise_lt_of_nodup (Sorting.pairwise_sortBy Candidate.relativeDir _) ?_
  rw [((List.mergeSort_perm _ _).map Candidate.relativeDir).nodup_iff, hfound]
  refine List.pairwise_map.mpr (List.pairwise_filterMap.mpr ?_)
  refine hplaces.increasing.imp_of_mem ?_
  intro names names' hnames hnames' hlt c hc c' hc' hsame
  have hdir := hs.relativeDir_of_inspect (hplain names hnames) (Survey.foundIn_eq_some_iff.mp hc)
  have hdir' := hs.relativeDir_of_inspect (hplain names' hnames')
    (Survey.foundIn_eq_some_iff.mp hc')
  refine hlt.ne (Path.dirText_injective (hplain names hnames) (hplain names' hnames') ?_)
  rw [← hdir, ← hdir', hsame]

/-- Directories clash if their candidates do: the names and the order of their texts
are the same. -/
theorem clash_iff {name : String} {first second : List String} :
    s.project.Clash fs tree name first second ↔
      ∃ c ∈ candidates, ∃ c' ∈ candidates, s.Stands fs tree first c ∧
        s.Stands fs tree second c' ∧ c.relativeDir < c'.relativeDir ∧
          c.name = name ∧ c'.name = name := by
  constructor
  · rintro ⟨hfirst, hsecond, hlt, hcalls, hcalls'⟩
    obtain ⟨c, hc, hstands⟩ := hs.exists_stands hwf hfirst
    obtain ⟨c', hc', hstands'⟩ := hs.exists_stands hwf hsecond
    exact ⟨c, hc, c', hc', hstands, hstands', (hstands.bytes_lt_iff hstands').mp hlt,
      hstands.calls.unique hcalls, hstands'.calls.unique hcalls'⟩
  · rintro ⟨c, -, c', -, hstands, hstands', hlt, rfl, hname⟩
    exact ⟨hstands.makes, hstands'.makes, (hstands.bytes_lt_iff hstands').mpr hlt,
      hstands.calls, hname ▸ hstands'.calls⟩

/-- **Candidates are refused** at the first directory that clashes with one before
it. -/
theorem enroll_eq_error_iff {supply : Identifier.Supply} :
    (enroll candidates .empty supply).1 = .error fault ↔
      ∃ name first second, s.project.Clash fs tree name first second ∧
        (∀ name' first' second', s.project.Clash fs tree name' first' second' →
          ¬ Text.bytes (Path.dirText second') < Text.bytes (Path.dirText second)) ∧
        fault = .duplicateTarget name (s.project.sourceDir.under first)
          (s.project.sourceDir.under second) := by
  have hincreasing := hs.candidates_increasing hwf
  have hholders : ∀ {before : List Candidate} {name path}, (name, path) ∈ holders .empty before ↔
      ∃ c ∈ before, c.name = name ∧ c.files.path = path := by
    intro before name path
    rw [mem_holders_iff]
    simp
  rw [SolutionTree.enroll_eq_error_iff]
  constructor
  · rintro ⟨before, c, after, rfl, hnodup, path, hholder, rfl⟩
    obtain ⟨holder, hbefore, hname, rfl⟩ := hholders.mp hholder
    obtain ⟨hmem, hlt⟩ := (Sorting.mem_before_iff hincreasing).mp hbefore
    obtain ⟨second, hsecond⟩ := hs.stands_of_mem hwf (by simp : c ∈ before ++ c :: after)
    obtain ⟨first, hfirst⟩ := hs.stands_of_mem hwf hmem
    refine ⟨c.name, first, second, ?_, ?_, by rw [hfirst.path, hsecond.path]⟩
    · exact (hs.clash_iff hwf).mpr ⟨holder, hmem, c, by simp, hfirst, hsecond, hlt, hname, rfl⟩
    · -- An earlier clash is one of candidates that stand before, which have different names.
      intro name' first' second' hclash hearlier
      obtain ⟨a, ha, b, hb, hstands, hstands', hab, hna, hnb⟩ := (hs.clash_iff hwf).mp hclash
      have hbc := (hstands'.bytes_lt_iff hsecond).mp hearlier
      have hb := (Sorting.mem_before_iff hincreasing).mpr ⟨hb, hbc⟩
      have ha := (Sorting.mem_before_iff hincreasing).mpr ⟨ha, hab.trans hbc⟩
      rw [names_holders, Catalog.names, Catalog.targets_empty, List.map_nil,
        List.nil_append] at hnodup
      obtain rfl := List.inj_on_of_nodup_map hnodup ha hb (hna.trans hnb.symm)
      exact lt_irrefl _ hab
  · rintro ⟨name, first, second, hclash, hleast, rfl⟩
    obtain ⟨holder, hmem, c, hc, hfirst, hsecond, hlt, hname, hname'⟩ :=
      (hs.clash_iff hwf).mp hclash
    obtain ⟨before, after, rfl⟩ := List.append_of_mem hc
    have hbefore := (Sorting.mem_before_iff hincreasing).mpr ⟨hmem, hlt⟩
    refine ⟨before, c, after, rfl, ?_, _,
      hholders.mpr ⟨holder, hbefore, hname.trans hname'.symm, rfl⟩, ?_⟩
    · rw [names_holders, Catalog.names, Catalog.targets_empty, List.map_nil, List.nil_append]
      refine List.pairwise_map.mpr ?_
      refine (hincreasing.sublist (List.sublist_append_left _ _)).imp_of_mem ?_
      intro a b ha hb hab hsame
      obtain ⟨hb, hbc⟩ := (Sorting.mem_before_iff hincreasing).mp hb
      obtain ⟨first', hstands⟩ := hs.stands_of_mem hwf (List.mem_append_left _ ha)
      obtain ⟨second', hstands'⟩ := hs.stands_of_mem hwf hb
      refine hleast b.name first' second' ?_ ((hstands'.bytes_lt_iff hsecond).mpr hbc)
      exact (hs.clash_iff hwf).mpr
        ⟨a, List.mem_append_left _ ha, b, hb, hstands, hstands', hab, hsame, rfl⟩
    · rw [hfirst.path, hsecond.path, hname']

end Surveyed
end Scanner

/-! ### Scans -/

namespace Project

variable {project : Project} {fs : FileSystem} {tree : FileTree} {fault : Fault}
  {patterns : List Pattern} {supply : Identifier.Supply}

/-- Patterns are compiled one after another, and all of them are when each of them
can be. -/
theorem patternsRead_iff : project.PatternsRead ↔
    ∃ patterns, parseExcludes project.settings.scan.exclude = .ok patterns :=
  exists_patterns_iff.symm

/-- What is reported where all patterns can be read. -/
theorem reports_iff_of_patternsRead (hread : project.PatternsRead) :
    project.Reports fs tree fault ↔
      (∃ names, project.Spoils fs tree names fault ∧
        ∀ names' fault', project.Spoils fs tree names' fault' → ¬ ComesBefore names' names) ∨
      (∀ names fault, ¬ project.Spoils fs tree names fault) ∧
        ∃ name first second, project.Clash fs tree name first second ∧
          (∀ name' first' second', project.Clash fs tree name' first' second' →
            ¬ Text.bytes (Path.dirText second') < Text.bytes (Path.dirText second)) ∧
          fault = .duplicateTarget name (project.sourceDir.under first)
            (project.sourceDir.under second) := by
  constructor
  · intro h
    cases h with
    | @pattern before after text e hsplit hbefore he =>
      obtain ⟨pattern, hpattern⟩ := hread text (by simp [hsplit])
      rw [he] at hpattern
      contradiction
    | manifest hread hspoils hfirst => exact .inl ⟨_, hspoils, hfirst⟩
    | clash hread hnone hclash hleast => exact .inr ⟨hnone, _, _, _, hclash, hleast, rfl⟩
  · rintro (⟨names, hspoils, hfirst⟩ | ⟨hnone, name, first, second, hclash, hleast, rfl⟩)
    · exact .manifest hread hspoils hfirst
    · exact .clash hread hnone hclash hleast

/-- What is reported where some pattern cannot be read. -/
theorem reports_iff_of_parseExcludes {e : Fault}
    (h : parseExcludes project.settings.scan.exclude = .error e) :
    project.Reports fs tree fault ↔ e = fault := by
  have hnot : ¬ project.PatternsRead := by
    intro hread
    obtain ⟨patterns, hok⟩ := patternsRead_iff.mp hread
    rw [h] at hok
    contradiction
  constructor
  · intro hreports
    cases hreports with
    | pattern hsplit hbefore he =>
      have hfirst := parseExcludes_eq_error_iff.mpr ⟨_, _, _, hsplit, ⟨_, he, rfl⟩, hbefore⟩
      exact Except.error.inj (h.symm.trans hfirst)
    | manifest hread hspoils hfirst => exact absurd hread hnot
    | clash hread hnone hclash hleast => exact absurd hread hnot
  · rintro rfl
    obtain ⟨before, text, after, hsplit, ⟨cause, he, rfl⟩, hbefore⟩ :=
      parseExcludes_eq_error_iff.mp h
    exact .pattern hsplit hbefore he

/-- A scan that goes well has listed every directory that is not excluded. -/
theorem listable_of_scan {catalog : Catalog} {supply' : Identifier.Supply}
    (hnode : fs.node? project.sourceDir = .ok tree) (hwf : tree.WellFormed)
    (h : project.scan fs supply = (.ok catalog, supply')) : project.Listable tree := by
  obtain ⟨s, candidates, rfl, hs, -, -⟩ := scan_eq_ok hnode h
  exact (Scanner.listable_iff hs.patterns hs.node hwf).mpr hs.fits

section Listed

variable (hnode : fs.node? project.sourceDir = .ok tree) (hwf : tree.WellFormed)
  (hlisted : project.Listable tree)
include hnode hwf hlisted

/-- A scan whose patterns can be read fails on the way to its candidates, or
candidates are refused. -/
theorem scan_of_patterns (hpatterns : parseExcludes project.settings.scan.exclude = .ok patterns)
    (supply : Identifier.Supply) :
    (∃ e, Survey.gather ((walk (Scanner.keeps ⟨project, patterns⟩) project.sourceDir tree).map
        (Scanner.inspect ⟨project, patterns⟩ fs)) = .error e ∧
      project.scan fs supply = (.error e, supply)) ∨
    ∃ candidates, Scanner.Surveyed ⟨project, patterns⟩ fs tree candidates ∧
      project.scan fs supply = enroll candidates .empty supply := by
  have hfits := (Scanner.listable_iff (s := ⟨project, patterns⟩) hpatterns hnode hwf).mp hlisted
  have hdirs := Scanner.directories_of_fits (s := ⟨project, patterns⟩) hnode hfits
  rw [scan, survey_of_patterns hpatterns, Scanner.survey, hdirs]
  simp only [Except.map, Survey.enroll]
  cases hfound : Survey.candidates ⟨(walk (Scanner.keeps ⟨project, patterns⟩) project.sourceDir
      tree).map (Scanner.inspect ⟨project, patterns⟩ fs)⟩ with
  | error e =>
    refine .inl ⟨e, ?_, rfl⟩
    rw [Survey.candidates] at hfound
    cases hgather : Survey.gather ((walk (Scanner.keeps ⟨project, patterns⟩) project.sourceDir
      tree).map (Scanner.inspect ⟨project, patterns⟩ fs)) with
    | error e' =>
      rw [hgather] at hfound
      exact hfound
    | ok found =>
      rw [hgather] at hfound
      contradiction
  | ok candidates => exact .inr ⟨candidates, ⟨hpatterns, hnode, hfits, hfound⟩, rfl⟩

/-- **The fault of a scan** is the one that is to be reported. Patterns come first,
then the manifests in the order of the walk, then the names in the order of texts.
-/
theorem scan_eq_error_iff_reports :
    (project.scan fs supply).1 = .error fault ↔ project.Reports fs tree fault := by
  cases hpatterns : parseExcludes project.settings.scan.exclude with
  | error e =>
    rw [reports_iff_of_parseExcludes hpatterns]
    simp only [scan, survey, Scanner.ofProject, hpatterns, Except.error.injEq]
  | ok patterns =>
    rw [reports_iff_of_patternsRead (patternsRead_iff.mpr ⟨patterns, hpatterns⟩)]
    rcases scan_of_patterns hnode hwf hlisted hpatterns supply with
      ⟨e, hgather, hscan⟩ | ⟨candidates, hs, hscan⟩
    · have hspoils :=
        Scanner.gather_eq_error_iff (s := ⟨project, patterns⟩) hpatterns hnode hwf hlisted
      rw [hscan, ← hspoils, Except.error.injEq]
      constructor
      · rintro rfl
        exact .inl hgather
      · rintro (hfirst | ⟨hnone, -⟩)
        · exact Except.error.inj (hgather.symm.trans hfirst)
        · obtain ⟨names, hspoilt, -⟩ := (hspoils e).mp hgather
          exact absurd hspoilt (hnone _ _)
    · rw [hscan, hs.enroll_eq_error_iff hwf]
      constructor
      · intro hclash
        exact .inr ⟨fun names fault => hs.not_spoils hwf, hclash⟩
      · rintro (⟨names, hspoilt, -⟩ | ⟨-, hclash⟩)
        · exact absurd hspoilt (hs.not_spoils hwf)
        · exact hclash

/-- A scan succeeds if all patterns can be read, no directory is spoilt and no two
clash. -/
theorem exists_catalog_iff_clear (supply : Identifier.Supply) :
    (∃ catalog supply', project.scan fs supply = (.ok catalog, supply')) ↔
      project.PatternsRead ∧ (∀ names fault, ¬ project.Spoils fs tree names fault) ∧
        ∀ name first second, ¬ project.Clash fs tree name first second := by
  constructor
  · rintro ⟨catalog, supply', h⟩
    obtain ⟨s, candidates, rfl, hs, htargets, -⟩ := scan_eq_ok hnode h
    refine ⟨patternsRead_iff.mpr ⟨_, hs.patterns⟩, fun _ _ => hs.not_spoils hwf, ?_⟩
    intro name first second hclash
    obtain ⟨c, hc, c', hc', -, -, hlt, hname, hname'⟩ := (hs.clash_iff hwf).mp hclash
    have hnodup : (candidates.map Candidate.name).Nodup := by
      rw [← map_withId (f := Target.name) (fun _ _ => rfl) (supply.length_take candidates.length),
        ← htargets]
      exact catalog.distinct
    obtain rfl := List.inj_on_of_nodup_map hnodup hc hc' (hname.trans hname'.symm)
    exact lt_irrefl _ hlt
  · rintro ⟨hread, hnone, hfree⟩
    have hreports : ∀ fault, ¬ (project.scan fs supply).1 = .error fault := by
      intro fault hfault
      rcases (reports_iff_of_patternsRead hread).mp
        ((scan_eq_error_iff_reports hnode hwf hlisted).mp hfault) with
        ⟨names, hspoilt, -⟩ | ⟨-, name, first, second, hclash, -⟩
      · exact hnone _ _ hspoilt
      · exact hfree _ _ _ hclash
    cases hscan : project.scan fs supply with
    | mk result supply' =>
      cases result with
      | error fault => exact absurd (by rw [hscan]) (hreports fault)
      | ok catalog => exact ⟨catalog, supply', rfl⟩

end Listed

/-- **The fault that a scan reports** is told by what is wrong with patterns,
manifests and names, in that order, and a scan fails if any of them is wrong and not
else. -/
theorem reports_of_scan (hnode : fs.node? project.sourceDir = .ok tree) (hwf : tree.WellFormed)
    (hlisted : project.Listable tree) (supply : Identifier.Supply) :
    (∀ fault, (project.scan fs supply).1 = .error fault ↔ project.Reports fs tree fault) ∧
      ((∃ fault, (project.scan fs supply).1 = .error fault) ↔
        ¬ project.PatternsRead ∨ (∃ names fault, project.Spoils fs tree names fault) ∨
          ∃ name first second, project.Clash fs tree name first second) := by
  refine ⟨fun fault => scan_eq_error_iff_reports hnode hwf hlisted, ?_⟩
  have hclear := exists_catalog_iff_clear hnode hwf hlisted supply
  have hfails : (∃ fault, (project.scan fs supply).1 = .error fault) ↔
      ¬ ∃ catalog supply', project.scan fs supply = (.ok catalog, supply') := by
    cases project.scan fs supply with
    | mk result supply' => cases result <;> simp
  rw [hfails, hclear, not_and_or, not_and_or]
  simp only [not_forall, not_not]

/-! ### Two bad manifests and a clash -/

/-- A source tree with malformed manifests in `a/z` and in `a-b`, of which the
second is the lesser text, and with two directories that give their targets one
name. -/
def faultyTree : FileTree :=
  .dir [("a", .dir [("z", .dir (targetEntries "EXE".toUTF8 []))]),
    ("a-b", .dir (targetEntries "EXE".toUTF8 [])),
    ("c", .dir [("d", .dir (targetEntries .empty []))]), ("c_d", .dir (targetEntries .empty []))]

def faultyFiles : FileSystem where
  tree := .dir [("src", faultyTree)]

def faulty : Project where
  root := ⟨"/"⟩
  sourceDir := ⟨"/src"⟩
  outputDir := ⟨"/bin"⟩
  intermediateDir := ⟨"/out"⟩
  settings := {}

def faultyWalk : List Path :=
  [⟨"/src"⟩, ⟨"/src/a"⟩, ⟨"/src/a/z"⟩, ⟨"/src/a-b"⟩, ⟨"/src/c"⟩, ⟨"/src/c/d"⟩, ⟨"/src/c_d"⟩]

theorem wellFormed_faultyTree : faultyTree.WellFormed := by
  have hbelow : ∀ name manifest, Path.isPlain name = true →
      (FileTree.dir [(name, .dir (targetEntries manifest []))]).WellFormed := by
    intro name manifest hname
    have hplain : ∀ n ∈ [name], Path.isPlain n = true := by simpa using hname
    exact FileTree.wellFormed_nest hplain (wellFormed_targetEntries manifest)
  refine .dir (by decide : ["a", "a-b", "c", "c_d"].Nodup) ?_ ?_
  · simpa using (by decide)
  · simpa using ⟨hbelow _ _ (by decide), wellFormed_targetEntries _, hbelow _ _ (by decide),
      wellFormed_targetEntries _⟩

theorem node?_faulty : faultyFiles.node? faulty.sourceDir = .ok faultyTree := by rfl

theorem walk_faulty :
    walk (Scanner.keeps ⟨faulty, []⟩) faulty.sourceDir faultyTree = faultyWalk := by
  have hbelow : ∀ (path : Path) name manifest, walk (Scanner.keeps ⟨faulty, []⟩) path
      (.dir [(name, .dir (targetEntries manifest []))]) =
        path :: if Scanner.keeps ⟨faulty, []⟩ (path.child name) then [path.child name] else [] := by
    intro path name manifest
    rw [walk_dir_of_sorted (List.pairwise_singleton _ _), walkEntries, walk_targetEntries]
    simp [walkEntries]
  rw [faultyTree, walk_dir_of_sorted (by decide), walkEntries, walkEntries, walkEntries,
    walkEntries,
    walk_targetEntries, walk_targetEntries, hbelow, hbelow]
  decide +kernel

theorem listable_faulty : faulty.Listable faultyTree := by
  have hfits : ∀ dir ∈ faultyWalk, FileSystem.refusal? dir = none := by decide +kernel
  refine (Scanner.listable_iff (s := ⟨faulty, []⟩) rfl node?_faulty wellFormed_faultyTree).mpr ?_
  rwa [walk_faulty]

theorem makesTarget_faulty {names : List String} {manifest : ByteArray}
    (h : faultyTree.find? names = some (.dir (targetEntries manifest []))) :
    faulty.MakesTarget faultyTree names where
  holds_source := by
    refine ⟨"m.cpp", .empty, ?_, "m", "cpp", rfl, by decide, by decide, "cpp", by decide, by decide⟩
    rw [FileTree.find?_append, h]
    rfl
  kept := by
    rintro above - - ⟨text, htext, -⟩
    exact absurd htext List.not_mem_nil

/-- What is wrong with the manifest of `a/z`. -/
def faultyManifest : Fault :=
  .manifestMalformed ⟨"/src/a/z/build.mk"⟩ 1 (Manifest.Problem.message (.missingOperator .exe))

/-- Both manifests are malformed. `a/z` is reported, whose component `a` is less
than `a-b`, although the text `a-b` is less than `a/z`. -/
theorem scan_faulty (supply : Identifier.Supply) :
    (faulty.scan faultyFiles supply).1 = .error faultyManifest := by
  have hgather : Survey.gather (faultyWalk.map (Scanner.inspect ⟨faulty, []⟩ faultyFiles)) =
      .error faultyManifest := by
    decide +kernel
  rcases scan_of_patterns node?_faulty wellFormed_faultyTree listable_faulty rfl supply with
    ⟨e, hfault, hscan⟩ | ⟨candidates, hs, -⟩
  · rw [walk_faulty] at hfault
    rw [hscan, Except.error.inj (hfault.symm.trans hgather)]
  · have hfound := hs.found
    rw [Survey.candidates, walk_faulty, hgather] at hfound
    contradiction

/-- The manifest that comes first by names is reported, and neither the other one
nor the clash. -/
theorem reports_of_scan_faulty :
    faultyFiles.node? faulty.sourceDir = .ok faultyTree ∧ faultyTree.WellFormed ∧
    faulty.Listable faultyTree ∧ faulty.Clash faultyFiles faultyTree "c_d" ["c", "d"] ["c_d"] ∧
    (faulty.scan faultyFiles ⟨.nil⟩).1 = .error faultyManifest ∧
    faulty.Reports faultyFiles faultyTree faultyManifest := by
  have hreports := reports_of_scan node?_faulty wellFormed_faultyTree listable_faulty ⟨.nil⟩
  refine ⟨node?_faulty, wellFormed_faultyTree, listable_faulty, ?_, scan_faulty _,
    (hreports.1 _).mp (scan_faulty _)⟩
  have hempty : faulty.manifestOf faultyFiles ["c", "d"] = .ok {} ∧
      faulty.manifestOf faultyFiles ["c_d"] = .ok {} := by
    decide +kernel
  exact {
    makes_first := makesTarget_faulty rfl
    makes_second := makesTarget_faulty rfl
    earlier := by decide +kernel
    calls_first := ⟨{}, hempty.1, by decide +kernel⟩
    calls_second := ⟨{}, hempty.2, by decide +kernel⟩ }

end Project

end SolutionTree
