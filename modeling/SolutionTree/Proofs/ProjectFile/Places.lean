import SolutionTree.ProjectFile
import SolutionTree.Proofs.FileSystem.Normalize
import SolutionTree.Proofs.Scan.Targets

/-!
Where the paths of a project file lead to.

Read from the output directory, every path of a project file leads to the place that
it stands for (`LeadsHome`), if the output directory is spelled by plain names and
the intermediate directory without empty segments (`projectFile_leadsHome`). The
settings may spell an output directory in any other way, and it is not normalized as
the source directory is: one dot in it, and the paths lead astray
(`not_leadsHome_dottedOutput`).
-/

namespace SolutionTree

open SolutionTree.Path

/-- The place that a text leads to from the output directory. -/
def Project.placeOf (p : Project) (text : String) : List String :=
  (p.outputDir.join ⟨text⟩).place

/-- A project file whose paths lead to where they should from the output directory,
for a target in the directory that names lead to. -/
structure ProjectFile.LeadsHome (f : ProjectFile) (p : Project) (t : Target)
    (names : List String) : Prop where
  /-- Sources come first and in order, and behind them only the generated runner. -/
  sources : ∃ items,
    f.compileItems = items ++ f.testRunner.toList.map (fun r => { path := r.fileName }) ∧
    items.map (fun item => p.placeOf item.path) =
      t.files.sources.map fun name => p.sourceDir.place ++ names ++ [name]
  /-- A test lists no headers. -/
  headers : f.includeItems.map p.placeOf =
    if t.kind = .test then []
    else t.files.headers.map fun name => p.sourceDir.place ++ names ++ [name]
  sourceRoot : f.includeDirs.head?.map p.placeOf = some p.sourceDir.place
  intermediates : f.builds.map (fun build => p.placeOf build.intermediateDir) =
    Configuration.all.map fun c =>
      (p.root.join p.settings.layout.intermediateDir).place ++ c.dirName :: names
  binaries : f.builds.map (fun build => p.placeOf build.outputDir) =
    Configuration.all.map fun c => (p.root.join p.settings.layout.outputDir).place ++ [c.dirName]

/-- A project whose output directory is spelled by plain names, and its intermediate
directory without empty segments. -/
structure Project.Spelled (p : Project) : Prop where
  outputDir : ∃ names, p.outputDir.Spells names ∧ ∀ name ∈ names, isPlain name = true
  intermediateDir : ∃ segments, p.intermediateDir.Spells segments ∧ ∀ s ∈ segments, IsSegment s

/-- A target that is reached without a backslash in any path. -/
structure Project.ClearOfBackslash (p : Project) (t : Target) : Prop where
  sourceDir : '\\' ∉ p.sourceDir.text.toList
  outputDir : '\\' ∉ p.outputDir.text.toList
  intermediateDir : '\\' ∉ p.intermediateDir.text.toList
  relativeDir : '\\' ∉ t.relativeDir.toList
  files : ∀ name ∈ t.files.sources ++ t.files.headers, '\\' ∉ name.toList

instance (p : Project) (t : Target) : Decidable (p.ClearOfBackslash t) :=
  decidable_of_iff
    ('\\' ∉ p.sourceDir.text.toList ∧ '\\' ∉ p.outputDir.text.toList ∧
      '\\' ∉ p.intermediateDir.text.toList ∧ '\\' ∉ t.relativeDir.toList ∧
      ∀ name ∈ t.files.sources ++ t.files.headers, '\\' ∉ name.toList)
    ⟨fun ⟨h₁, h₂, h₃, h₄, h₅⟩ => ⟨h₁, h₂, h₃, h₄, h₅⟩,
      fun h => ⟨h.sourceDir, h.outputDir, h.intermediateDir, h.relativeDir, h.files⟩⟩

/-! ### One path -/

/-- A slash at the end of a directory does not count for where it is. -/
theorem place_join_withTrailingSlash {base : Path} {names : List String} {rel : String}
    (h : ∀ name ∈ names, IsSegment name) (hbase : base.Spells names)
    (hrel : isAbsolute ⟨rel⟩ = false) :
    (base.join ⟨withTrailingSlash rel⟩).place = (base.join ⟨rel⟩).place := by
  unfold withTrailingSlash
  split
  · rfl
  next hslash =>
    have hne : rel ≠ "" := by
      intro hempty
      simp [hempty] at hslash
    exact hbase.place_join_append_slash h hrel hne

namespace Project

variable {p : Project} {t : Target} {out segments names : List String}

section Spelled

variable (hout : p.outputDir.Spells out) (hplain : ∀ name ∈ out, isPlain name = true)
  (hback : '\\' ∉ p.outputDir.text.toList) (hsegments : ∀ s ∈ segments, IsSegment s)
  (hclear : ∀ s ∈ segments, '\\' ∉ s.toList)
include hout hplain hback hsegments hclear

/-- A path relative to the output directory leads to its place, with a slash behind
it or not. -/
theorem placeOf_relative :
    p.placeOf ((ofPlace segments).relative p.outputDir) = placeFrom [] segments ∧
      p.placeOf (withTrailingSlash ((ofPlace segments).relative p.outputDir)) =
        placeFrom [] segments := by
  have hnames : ∀ name ∈ out, IsSegment name := fun name hm => isSegment_of_isPlain (hplain name hm)
  have hback' : '\\' ∉ (ofPlace segments).text.toList := by
    rw [mem_text_ofPlace_iff (by decide)]
    rintro ⟨s, hs, hmem⟩
    exact hclear s hs hmem
  have hrel := isAbsolute_relative hsegments hnames hout hback hback'
  have hplace := hout.place_join_relative hsegments hnames hback hback' hplain
  exact ⟨hplace, (place_join_withTrailingSlash hnames hout hrel).trans hplace⟩

end Spelled

/-! ### Targets in their directories -/

/-- A target that a scan found in the directory that names lead to, below a source
directory that is spelled by plain names. -/
structure Locates (p : Project) (t : Target) (src names : List String) : Prop where
  sourceDir : p.sourceDir = ofPlace src
  isPlain_src : ∀ name ∈ src, isPlain name = true
  relativeDir : t.relativeDir = dirText names
  isPlain_names : ∀ name ∈ names, isPlain name = true
  path : t.files.path = p.sourceDir.under names
  isPlain_files : ∀ name ∈ t.files.sources ++ t.files.headers, isPlain name = true

namespace Locates

variable {src : List String} (h : p.Locates t src names) (hclear : p.ClearOfBackslash t)
include h

theorem place_sourceDir : p.sourceDir.place = src := by
  rw [h.sourceDir, place_ofPlace_of_isPlain h.isPlain_src]

theorem text_path_ne : t.files.path.text ≠ "" := by
  rw [h.path, h.sourceDir]
  exact text_under_ne (text_ofPlace_ne src) h.isPlain_names

/-- The path of a file has the names that lead to it. -/
theorem child_path {name : String} (hname : isPlain name = true) :
    t.files.path.child name = ofPlace (src ++ names ++ [name]) := by
  have hsrc : ∀ s ∈ src, IsSegment s := fun s hs => isSegment_of_isPlain (h.isPlain_src s hs)
  have hnames : ∀ s ∈ names, IsSegment s := fun s hs => isSegment_of_isPlain (h.isPlain_names s hs)
  rw [h.path, h.sourceDir, under_ofPlace hsrc hnames]
  exact (spells_ofPlace _).child_eq (List.forall_mem_append.mpr ⟨hsrc, hnames⟩)
    (isSegment_of_isPlain hname)

include hclear

theorem notMem_src : ∀ s ∈ src, '\\' ∉ s.toList := by
  intro s hs hmem
  apply hclear.sourceDir
  rw [h.sourceDir, mem_text_ofPlace_iff (by decide)]
  exact ⟨s, hs, hmem⟩

theorem notMem_names : ∀ s ∈ names, '\\' ∉ s.toList := by
  intro s hs hmem
  apply hclear.relativeDir
  rw [h.relativeDir, mem_dirText_iff (by decide)]
  exact ⟨s, hs, hmem⟩

variable (hspelled : p.Spelled)
include hspelled

/-- A file of a target leads to its place. -/
theorem placeOf_file {name : String} (hname : name ∈ t.files.sources ++ t.files.headers) :
    p.placeOf (Path.relative (t.files.path.child name) p.outputDir) =
      p.sourceDir.place ++ names ++ [name] := by
  obtain ⟨out, hout, hplain⟩ := hspelled.outputDir
  have hfile := h.isPlain_files name hname
  have hpath : ∀ s ∈ src ++ names ++ [name], isPlain s = true :=
    List.forall_mem_append.mpr
      ⟨List.forall_mem_append.mpr ⟨h.isPlain_src, h.isPlain_names⟩, by simpa using hfile⟩
  have hback : ∀ s ∈ src ++ names ++ [name], '\\' ∉ s.toList :=
    List.forall_mem_append.mpr
      ⟨List.forall_mem_append.mpr ⟨h.notMem_src hclear, h.notMem_names hclear⟩,
        by simpa using hclear.files name hname⟩
  rw [h.child_path hfile, (placeOf_relative hout hplain hclear.outputDir
    (fun s hs => isSegment_of_isPlain (hpath s hs)) hback).1, placeFrom_of_isPlain [] hpath,
    h.place_sourceDir, List.nil_append]

/-- The first include directory leads home. -/
theorem placeOf_sourceDir :
    p.placeOf (Path.relative p.sourceDir p.outputDir) = p.sourceDir.place := by
  obtain ⟨out, hout, hplain⟩ := hspelled.outputDir
  rw [h.place_sourceDir, h.sourceDir, (placeOf_relative hout hplain hclear.outputDir
    (fun s hs => isSegment_of_isPlain (h.isPlain_src s hs)) (h.notMem_src hclear)).1,
    placeFrom_of_isPlain [] h.isPlain_src, List.nil_append]

end Locates

theorem isPlain_dirName (c : Configuration) : isPlain c.dirName = true := by
  cases c <;> decide

theorem notMem_dirName (c : Configuration) : '\\' ∉ c.dirName.toList := by
  cases c <;> decide

/-- The binaries of a configuration go to a directory of its name in the output
directory. -/
theorem binaryOf_eq {segments : List String} (hout : p.outputDir.Spells segments)
    (hsegments : ∀ s ∈ segments, IsSegment s) (c : Configuration) :
    p.binaryOf c.dirName = ofPlace (segments ++ [c.dirName]) :=
  hout.child_eq hsegments (isSegment_of_isPlain (isPlain_dirName c))

/-- The intermediate files of a target go below the name of the configuration, in a
directory like that of the target. -/
theorem intermediateOfTarget_eq {segments : List String}
    (hinter : p.intermediateDir.Spells segments) (hsegments : ∀ s ∈ segments, IsSegment s)
    (hnames : ∀ name ∈ names, isPlain name = true)
    (c : Configuration) :
    p.intermediateOfTarget c (dirText names) = ofPlace (segments ++ c.dirName :: names) := by
  have hname : IsSegment c.dirName := isSegment_of_isPlain (isPlain_dirName c)
  have hfirst : ∀ s ∈ segments ++ [c.dirName], IsSegment s :=
    List.forall_mem_append.mpr ⟨hsegments, List.forall_mem_singleton.mpr hname⟩
  rw [intermediateOfTarget, intermediateOf, descend_dirText hnames,
    hinter.child_eq hsegments hname,
    under_ofPlace hfirst fun s hs => isSegment_of_isPlain (hnames s hs), List.append_assoc]
  rfl

/-- The intermediate files of a target go below the intermediate directory, by
configuration and then by directory. -/
theorem placeOf_intermediateDir {src : List String} (h : p.Locates t src names)
    (hclear : p.ClearOfBackslash t) (hspelled : p.Spelled) (c : Configuration) :
    p.placeOf (BuildSettings.ofTarget p t c).intermediateDir =
      p.intermediateDir.place ++ c.dirName :: names := by
  obtain ⟨out, hout, hplain⟩ := hspelled.outputDir
  obtain ⟨inter, hinter, hsegments⟩ := hspelled.intermediateDir
  have hbelow : ∀ s ∈ c.dirName :: names, isPlain s = true :=
    List.forall_mem_cons.mpr ⟨isPlain_dirName c, h.isPlain_names⟩
  have hbelow' : ∀ s ∈ c.dirName :: names, IsSegment s :=
    fun s hs => isSegment_of_isPlain (hbelow s hs)
  have hback : ∀ s ∈ inter ++ c.dirName :: names, '\\' ∉ s.toList := by
    refine List.forall_mem_append.mpr ⟨?_, ?_⟩
    · intro s hs hmem
      exact hclear.intermediateDir ((hinter.mem_text_iff (by decide)).mpr ⟨s, hs, hmem⟩)
    · exact List.forall_mem_cons.mpr ⟨notMem_dirName c, h.notMem_names hclear⟩
  have hpath : p.intermediateOfTarget c t.relativeDir = ofPlace (inter ++ c.dirName :: names) := by
    rw [h.relativeDir]
    exact intermediateOfTarget_eq hinter hsegments h.isPlain_names c
  simp only [BuildSettings.ofTarget]
  rw [hpath, (placeOf_relative hout hplain hclear.outputDir
    (List.forall_mem_append.mpr ⟨hsegments, hbelow'⟩) hback).2, placeFrom_append,
    placeFrom_of_isPlain _ hbelow, hinter.place_eq hsegments]

/-- The output directory of a build leads home, when the project is spelled plainly
and no name on the way has a backslash. -/
theorem placeOf_outputDir (hclear : p.ClearOfBackslash t) (hspelled : p.Spelled)
    (c : Configuration) :
    p.placeOf (BuildSettings.ofTarget p t c).outputDir = p.outputDir.place ++ [c.dirName] := by
  obtain ⟨out, hout, hplain⟩ := hspelled.outputDir
  have hsegments : ∀ s ∈ out, IsSegment s := fun s hs => isSegment_of_isPlain (hplain s hs)
  have hpath : ∀ s ∈ out ++ [c.dirName], isPlain s = true :=
    List.forall_mem_append.mpr ⟨hplain, by simpa using isPlain_dirName c⟩
  have hback : ∀ s ∈ out ++ [c.dirName], '\\' ∉ s.toList := by
    refine List.forall_mem_append.mpr ⟨?_, by simpa using notMem_dirName c⟩
    intro s hs hmem
    exact hclear.outputDir ((hout.mem_text_iff (by decide)).mpr ⟨s, hs, hmem⟩)
  simp only [BuildSettings.ofTarget]
  rw [binaryOf_eq hout hsegments c,
    (placeOf_relative hout hplain hclear.outputDir
      (fun s hs => isSegment_of_isPlain (hpath s hs)) hback).2, placeFrom_append,
    hout.place_eq hsegments]
  exact placeFrom_of_isPlain _ (by simpa using isPlain_dirName c)

/-! ### Whole project files -/

/-- All paths of the project file of a target that is in its directory. -/
theorem Locates.leadsHome {src : List String} (h : p.Locates t src names)
    (hclear : p.ClearOfBackslash t) (hspelled : p.Spelled)
    (houtput : p.outputDir = p.root.join p.settings.layout.outputDir)
    (hintermediate : p.intermediateDir = p.root.join p.settings.layout.intermediateDir)
    (s : Solution) {m : Member} (hm : m.target = t) :
    (ProjectFile.ofMember p s m).LeadsHome p t names where
  sources := by
    subst hm
    refine ⟨m.target.files.sourcePaths.map (ProjectFile.compileItem p m.target.kind), rfl, ?_⟩
    rw [Listing.sourcePaths, List.map_map, List.map_map]
    apply List.map_congr_left
    intro name hname
    simp only [Function.comp_apply, ProjectFile.compileItem]
    exact h.placeOf_file hclear hspelled (List.mem_append_left _ hname)
  headers := by
    subst hm
    simp only [ProjectFile.ofMember]
    split
    · rfl
    · rw [Listing.headerPaths, List.map_map, List.map_map]
      apply List.map_congr_left
      intro name hname
      simp only [Function.comp_apply]
      exact h.placeOf_file hclear hspelled (List.mem_append_right _ hname)
  sourceRoot := congrArg some (h.placeOf_sourceDir hclear hspelled)
  intermediates := by
    subst hm
    rw [← hintermediate]
    simp only [ProjectFile.ofMember, List.map_map]
    apply List.map_congr_left
    intro c _
    simp only [Function.comp_apply]
    exact placeOf_intermediateDir h hclear hspelled c
  binaries := by
    subst hm
    rw [← houtput]
    simp only [ProjectFile.ofMember, List.map_map]
    apply List.map_congr_left
    intro c _
    simp only [Function.comp_apply]
    exact placeOf_outputDir hclear hspelled c

variable {fs : FileSystem} {root : Path} {settings : Settings}

/-- What a project comes of. -/
theorem create_eq_ok (h : create fs root settings = .ok p) :
    p.root = fs.normalize root ∧ p.settings = settings ∧
      p.sourceDir = fs.normalize (p.root.join settings.layout.sourceDir) ∧
      p.outputDir = p.root.join settings.layout.outputDir ∧
      p.intermediateDir = p.root.join settings.layout.intermediateDir ∧
      fs.isDir p.sourceDir = true := by
  unfold create at h
  dsimp only at h
  split at h
  next hdir =>
    rw [← Except.ok.inj h]
    exact ⟨rfl, rfl, rfl, rfl, rfl, hdir⟩
  · contradiction

variable {tree : FileTree} {catalog : Catalog} {supply supply' : Identifier.Supply}

/-- A target of a scan is in its directory. -/
theorem locates_of_scan (hp : create fs root settings = .ok p) (hroot : p.root.isAbsolute = true)
    (htree : fs.node? p.sourceDir = .ok tree) (hwf : tree.WellFormed)
    (hscan : p.scan fs supply = (.ok catalog, supply')) (ht : t ∈ catalog.targets) :
    ∃ src names, p.Locates t src names := by
  obtain ⟨-, -, hsource, -, -, hdir⟩ := create_eq_ok hp
  obtain ⟨names, entries, hfind, hrelative, hfiles⟩ := files_of_scan htree hwf hscan ht
  have habs := isAbsolute_join hroot settings.layout.sourceDir
  rw [hsource] at hdir
  have hsource' := hsource.trans (FileSystem.normalize_of_isDir habs hdir)
  refine ⟨_, names, hsource', isPlain_place _, hrelative, hwf.isPlain_of_find? hfind, ?_, ?_⟩
  · rw [hfiles, Listing.ofEntries]
  · intro name hname
    rw [hfiles] at hname
    obtain ⟨content, hmem⟩ : ∃ content, (name, FileTree.file content) ∈ entries := by
      rcases List.mem_append.mp hname with h | h
      · exact (Listing.mem_namesOf_iff.mp h).1
      · exact (Listing.mem_namesOf_iff.mp h).1
    exact (hwf.of_find? hfind).isPlain_of_mem _ hmem

/-- **The paths of a project file lead home** from an output directory that is
spelled by plain names. -/
theorem projectFile_leadsHome (hp : create fs root settings = .ok p)
    (hroot : p.root.isAbsolute = true) (hspelled : p.Spelled)
    (htree : fs.node? p.sourceDir = .ok tree) (hwf : tree.WellFormed)
    (hscan : p.scan fs supply = (.ok catalog, supply')) (ht : t ∈ catalog.targets)
    (hclear : p.ClearOfBackslash t) (s : Solution) (m : Member) (hm : m.target = t) :
    ∃ names, t.relativeDir = dirText names ∧ (∀ name ∈ names, isPlain name = true) ∧
      (ProjectFile.ofMember p s m).LeadsHome p t names := by
  obtain ⟨src, names, h⟩ := locates_of_scan hp hroot htree hwf hscan ht
  obtain ⟨-, hsettings, -, houtput, hintermediate, -⟩ := create_eq_ok hp
  rw [← hsettings] at houtput hintermediate
  exact ⟨names, h.relativeDir, h.isPlain_names,
    h.leadsHome hclear hspelled houtput hintermediate s hm⟩

/-! ### An output directory that is spelled with a dot -/

def oneSourceFiles : FileSystem where
  tree := .dir [("w", .dir [("src", .dir [("a.cpp", .file .empty)])])]

def outputSettings (outputDir : String) : Settings :=
  { layout := { outputDir := ⟨outputDir⟩ } }

def oneSource (outputDir : String) : Project where
  root := ⟨"/w"⟩
  sourceDir := ⟨"/w/src"⟩
  outputDir := ⟨"/w/" ++ outputDir⟩
  intermediateDir := ⟨"/w/out"⟩
  settings := outputSettings outputDir

theorem wellFormed_oneSource : (FileTree.dir [("a.cpp", .file .empty)]).WellFormed :=
  .dir (by decide) (by decide) (by simpa using .file .empty)

/-- A scan that comes to a target with some property, by running it. -/
theorem exists_target_of_any (holds : Target → Bool) (p : Project) (fs : FileSystem)
    (h : (match (p.scan fs ⟨.nil⟩).1 with
      | .ok catalog => catalog.targets.any holds
      | .error _ => false) = true) :
    ∃ catalog supply', p.scan fs ⟨.nil⟩ = (.ok catalog, supply') ∧
      ∃ t ∈ catalog.targets, holds t = true := by
  cases hscan : p.scan fs ⟨.nil⟩ with
  | mk result supply' =>
    rw [hscan] at h
    cases result with
    | error fault => contradiction
    | ok catalog => exact ⟨catalog, supply', rfl, List.any_eq_true.mp h⟩

theorem exists_target_of_check (p : Project) (fs : FileSystem)
    (h : (match (p.scan fs ⟨.nil⟩).1 with
      | .ok catalog => catalog.targets.any fun t => decide (p.ClearOfBackslash t)
      | .error _ => false) = true) :
    ∃ catalog supply', p.scan fs ⟨.nil⟩ = (.ok catalog, supply') ∧
      ∃ t ∈ catalog.targets, p.ClearOfBackslash t := by
  obtain ⟨catalog, supply', hscan, t, ht, hclear⟩ := exists_target_of_any _ p fs h
  exact ⟨catalog, supply', hscan, t, ht, of_decide_eq_true hclear⟩

/-- The only source of a project gives a project file that leads home. -/
theorem projectFile_leadsHome_oneSource :
    create oneSourceFiles ⟨"/w"⟩ (outputSettings "bin") = .ok (oneSource "bin") ∧
      ∃ catalog supply', (oneSource "bin").scan oneSourceFiles ⟨.nil⟩ = (.ok catalog, supply') ∧
        ∃ t ∈ catalog.targets, ∀ (s : Solution) (m : Member), m.target = t →
          ∃ names, t.relativeDir = dirText names ∧ (∀ name ∈ names, isPlain name = true) ∧
            (ProjectFile.ofMember (oneSource "bin") s m).LeadsHome (oneSource "bin") t names := by
  have hcreate : create oneSourceFiles ⟨"/w"⟩ (outputSettings "bin") = .ok (oneSource "bin") := by
    rfl
  have htree : oneSourceFiles.node? (oneSource "bin").sourceDir =
      .ok (.dir [("a.cpp", .file .empty)]) := by rfl
  have hspelled : (oneSource "bin").Spelled :=
    ⟨⟨["w", "bin"], .inl (by decide), by decide⟩, ⟨["w", "out"], .inl (by decide), by decide⟩⟩
  obtain ⟨catalog, supply', hscan, t, ht, hclear⟩ :=
    exists_target_of_check (oneSource "bin") oneSourceFiles (by decide +kernel)
  exact ⟨hcreate, catalog, supply', hscan, t, ht, projectFile_leadsHome hcreate (by decide) hspelled
    htree wellFormed_oneSource hscan ht hclear⟩

/-- **One dot leads astray**: below `./bin` the source root is looked for beside the
project. -/
theorem not_leadsHome_dottedOutput :
    create oneSourceFiles ⟨"/w"⟩ (outputSettings "./bin") = .ok (oneSource "./bin") ∧
      ∃ catalog supply', (oneSource "./bin").scan oneSourceFiles ⟨.nil⟩ = (.ok catalog, supply') ∧
        ∃ t ∈ catalog.targets, (oneSource "./bin").ClearOfBackslash t ∧
          ∀ (s : Solution) (m : Member) (names : List String), m.target = t →
            ¬ (ProjectFile.ofMember (oneSource "./bin") s m).LeadsHome (oneSource "./bin") t
              names := by
  obtain ⟨catalog, supply', hscan, t, ht, hclear⟩ :=
    exists_target_of_check (oneSource "./bin") oneSourceFiles (by decide +kernel)
  refine ⟨by rfl, catalog, supply', hscan, t, ht, hclear, ?_⟩
  intro s m names _ h
  have hroot : (oneSource "./bin").placeOf
      (Path.relative (oneSource "./bin").sourceDir (oneSource "./bin").outputDir) =
        (oneSource "./bin").sourceDir.place := Option.some.inj h.sourceRoot
  have hastray : (oneSource "./bin").placeOf
      (Path.relative (oneSource "./bin").sourceDir (oneSource "./bin").outputDir) = ["src"] := by
    decide
  rw [hastray] at hroot
  exact absurd hroot (by decide)

end Project

end SolutionTree
