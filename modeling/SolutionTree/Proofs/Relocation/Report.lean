import SolutionTree.Proofs.ProjectFile.Places
import SolutionTree.Proofs.References
import SolutionTree.Proofs.Relocation.Scan
import SolutionTree.Proofs.Report

/-!
A report at another root.

Every path of a project file leads from the output directory to something below the
root, and so does not tell the root (`ofMember_relocates`). With the targets of the
scan, the whole report is the same at both roots but for where the source tree
stands, which no document shows (`generateAt_relocates`). A directory that is named
by a backslash alone is lost when paths are written with slashes, and then a name of
the root shows; a root may also be too long for what stands below it
(`not_generateAt_relocates`).
-/

namespace SolutionTree

open SolutionTree.Path

/-! ### Runs -/

namespace Project

def generateAt (fs : FileSystem) (root : Path) (settings : Settings) : Except RunError Report :=
  match create fs root settings with
  | .error fault => .error ⟨none, fault⟩
  | .ok p => p.generate fs

end Project

/-! ### Project files -/

namespace Relocates

variable {settings : Settings} {n : LayoutNames} {names : List String} {t : Target}

theorem isSolid_dirName (c : Configuration) : IsSolid c.dirName := by
  cases c <;> decide

/-- A path below the root, as it is written into project files. -/
theorem relative_projectAt {xs : List String} (r : Path) (hxs : ∃ x ∈ xs, IsSolid x)
    (hout : ∃ name ∈ n.output, IsSolid name) :
    (ofPlace (r.place ++ xs)).relative (n.projectAt settings r.place).outputDir =
      Path.relative ⟨dirText xs⟩ ⟨dirText n.output⟩ :=
  relative_ofPlace_append r.place hxs hout

section Written

variable (hlayout : settings.layout.Names n) (hout : ∃ name ∈ n.output, IsSolid name)
include hlayout hout

/-- The way to the binaries of a configuration is that between two texts which do
not know the root. -/
theorem relative_binaryOf (r : Path) (c : Configuration) :
    Path.relative ((n.projectAt settings r.place).binaryOf c.dirName)
        (n.projectAt settings r.place).outputDir =
      Path.relative ⟨dirText (n.output ++ [c.dirName])⟩ ⟨dirText n.output⟩ := by
  have hplain := isPlain_place_append r hlayout.outputDir.isPlain
  have hpath : (n.projectAt settings r.place).binaryOf c.dirName =
      ofPlace (r.place ++ n.output ++ [c.dirName]) :=
    Project.binaryOf_eq (spells_ofPlace _) (fun s hs => isSegment_of_isPlain (hplain s hs)) c
  rw [List.append_assoc] at hpath
  rw [hpath, relative_projectAt r ⟨c.dirName, by simp, isSolid_dirName c⟩ hout]

/-- The way to the intermediate files of a target does not know the root either; the
names of the target's directory stand at its end. -/
theorem relative_intermediateOfTarget (r : Path) (ht : t.relativeDir = dirText names)
    (hnames : ∀ name ∈ names, isPlain name = true) (c : Configuration) :
    Path.relative ((n.projectAt settings r.place).intermediateOfTarget c t.relativeDir)
        (n.projectAt settings r.place).outputDir =
      Path.relative ⟨dirText (n.intermediate ++ c.dirName :: names)⟩ ⟨dirText n.output⟩ := by
  have hplain := isPlain_place_append r hlayout.intermediateDir.isPlain
  have hpath : (n.projectAt settings r.place).intermediateOfTarget c (dirText names) =
      ofPlace (r.place ++ n.intermediate ++ c.dirName :: names) :=
    Project.intermediateOfTarget_eq (spells_ofPlace _)
      (fun s hs => isSegment_of_isPlain (hplain s hs)) hnames c
  rw [List.append_assoc] at hpath
  rw [ht]
  rw [hpath, relative_projectAt r ⟨c.dirName, by simp, isSolid_dirName c⟩ hout]

/-- **How a target is built** does not tell the root: both of its directories are
written from the output directory. -/
theorem ofTarget_relocates (r r' : Path) (ht : t.relativeDir = dirText names)
    (hnames : ∀ name ∈ names, isPlain name = true) (c : Configuration) (sourceDir : Path) :
    BuildSettings.ofTarget (n.projectAt settings r'.place) (t.movedTo sourceDir) c =
      BuildSettings.ofTarget (n.projectAt settings r.place) t c := by
  have hmoved : (t.movedTo sourceDir).relativeDir = dirText names := ht
  simp only [BuildSettings.ofTarget, relative_binaryOf hlayout hout,
    relative_intermediateOfTarget hlayout hout r ht hnames,
    relative_intermediateOfTarget hlayout hout r' hmoved hnames]
  rfl

end Written

section Files

variable {root : Path} {src : List String}
  (h : (n.projectAt settings root.place).Locates t src names)
  (hlayout : settings.layout.Names n) (hsource : ∃ name ∈ n.source, IsSolid name)
  (hout : ∃ name ∈ n.output, IsSolid name)
include h hlayout

/-- A target that a scan at the root has found stands below the source directory
which the settings name there. -/
theorem src_eq : src = root.place ++ n.source := by
  have hsame : ofPlace src = ofPlace (root.place ++ n.source) := h.sourceDir.symm
  rw [← place_ofPlace_of_isPlain h.isPlain_src, hsame,
    place_ofPlace_of_isPlain (isPlain_place_append root hlayout.sourceDir.isPlain)]

/-- A target that is moved is in its directory there. -/
theorem locates_movedTo (root' : Path) :
    (n.projectAt settings root'.place).Locates
      (t.movedTo (n.projectAt settings root'.place).sourceDir) (root'.place ++ n.source) names where
  sourceDir := rfl
  isPlain_src := isPlain_place_append root' hlayout.sourceDir.isPlain
  relativeDir := h.relativeDir
  isPlain_names := h.isPlain_names
  path := by
    rw [← descend_dirText h.isPlain_names, ← h.relativeDir]
    rfl
  isPlain_files := h.isPlain_files

/-- The function that a `main` is renamed to has its name from the file alone. -/
theorem entryPoint_movedTo (root' : Path) {name : String} (hname : name ∈ t.files.sources) :
    entryPoint ((t.movedTo (n.projectAt settings root'.place).sourceDir).files.path.child name) =
      entryPoint (t.files.path.child name) := by
  have hplain := h.isPlain_files name (List.mem_append_left _ hname)
  have hmoved := locates_movedTo h hlayout root'
  have hfile : ((t.movedTo (n.projectAt settings root'.place).sourceDir).files.path.child
      name).fileName? = (t.files.path.child name).fileName? := by
    rw [fileName?_child hmoved.text_path_ne hplain, fileName?_child h.text_path_ne hplain]
  rw [entryPoint, entryPoint, stem?_congr hfile]

theorem testRunner_movedTo (root' : Path) :
    TestRunner.ofTarget (t.movedTo (n.projectAt settings root'.place).sourceDir) =
      TestRunner.ofTarget t := by
  have hnames : (t.movedTo (n.projectAt settings root'.place).sourceDir).files.sourcePaths.map
      entryPoint = t.files.sourcePaths.map entryPoint := by
    rw [Listing.sourcePaths, Listing.sourcePaths, List.map_map, List.map_map]
    apply List.map_congr_left
    intro name hname
    exact entryPoint_movedTo h hlayout root' hname
  simp only [TestRunner.ofTarget, hnames]
  rfl

include hsource hout

/-- The way to a file of a target has the names below the source directory at its
end, and does not know the root. -/
theorem relative_file {name : String} (hname : name ∈ t.files.sources ++ t.files.headers) :
    Path.relative (t.files.path.child name) (n.projectAt settings root.place).outputDir =
      Path.relative ⟨dirText (n.source ++ names ++ [name])⟩ ⟨dirText n.output⟩ := by
  obtain ⟨x, hx, hsolid⟩ := hsource
  rw [h.child_path (h.isPlain_files name hname), src_eq h hlayout, List.append_assoc root.place,
    List.append_assoc root.place]
  exact relative_projectAt root ⟨x, by simp [hx], hsolid⟩ hout

/-- A file is written into project files alike. -/
theorem relative_file_movedTo (root' : Path) {name : String}
    (hname : name ∈ t.files.sources ++ t.files.headers) :
    Path.relative
        ((t.movedTo (n.projectAt settings root'.place).sourceDir).files.path.child name)
        (n.projectAt settings root'.place).outputDir =
      Path.relative (t.files.path.child name) (n.projectAt settings root.place).outputDir := by
  have hmoved := locates_movedTo h hlayout root'
  rw [relative_file h hlayout hsource hout hname,
    relative_file hmoved hlayout hsource hout hname]

end Files

/-- The library that a runnable links does not depend on where the source tree
stands. -/
theorem linkedLibraries_movedTo (t : Target) (s : Solution) (sourceDir : Path) :
    ProjectFile.linkedLibraries (t.movedTo sourceDir) (s.movedTo sourceDir) =
      ProjectFile.linkedLibraries t s := by
  have howner : ((t.movedTo sourceDir).runnableOwner?.bind fun owner =>
      (s.movedTo sourceDir).find? owner.name) =
        (t.runnableOwner?.bind fun owner => s.find? owner.name).map
          (Member.movedTo sourceDir) := by
    change (t.runnableOwner?.bind fun owner => (s.movedTo sourceDir).find? owner.name) = _
    cases t.runnableOwner? with
    | none => rfl
    | some owner => exact s.find?_movedTo owner.name
  rw [ProjectFile.linkedLibraries, ProjectFile.linkedLibraries, howner]
  cases t.runnableOwner?.bind fun owner => s.find? owner.name with
  | none => rfl
  | some owner => rfl

/-- **A project file does not tell the root.** Each of its paths leads from the
output directory to something below the root, and names, identifiers and references
do not move. -/
theorem ofMember_relocates {m : Member} {root : Path} {src : List String} (root' : Path)
    (h : (n.projectAt settings root.place).Locates m.target src names)
    (hlayout : settings.layout.Names n) (hsource : ∃ name ∈ n.source, IsSolid name)
    (hout : ∃ name ∈ n.output, IsSolid name) (s : Solution) :
    ProjectFile.ofMember (n.projectAt settings root'.place)
        (s.movedTo (n.projectAt settings root'.place).sourceDir)
        (m.movedTo (n.projectAt settings root'.place).sourceDir) =
      ProjectFile.ofMember (n.projectAt settings root.place) s m := by
  have hbuilds : Configuration.all.map (BuildSettings.ofTarget (n.projectAt settings root'.place)
        (m.target.movedTo (n.projectAt settings root'.place).sourceDir)) =
      Configuration.all.map (BuildSettings.ofTarget (n.projectAt settings root.place) m.target) :=
    List.map_congr_left fun c _ =>
      ofTarget_relocates hlayout hout root root' h.relativeDir h.isPlain_names c _
  have hsources :
      (m.target.movedTo (n.projectAt settings root'.place).sourceDir).files.sourcePaths.map
          (ProjectFile.compileItem (n.projectAt settings root'.place) m.target.kind) =
        m.target.files.sourcePaths.map
          (ProjectFile.compileItem (n.projectAt settings root.place) m.target.kind) := by
    rw [Listing.sourcePaths, Listing.sourcePaths, List.map_map, List.map_map]
    apply List.map_congr_left
    intro name hname
    simp only [Function.comp_apply, ProjectFile.compileItem,
      entryPoint_movedTo h hlayout root' hname,
      relative_file_movedTo h hlayout hsource hout root' (List.mem_append_left _ hname)]
  have hheaders :
      (m.target.movedTo (n.projectAt settings root'.place).sourceDir).files.headerPaths.map
          (fun header => Path.relative header (n.projectAt settings root'.place).outputDir) =
        m.target.files.headerPaths.map
          fun header => Path.relative header (n.projectAt settings root.place).outputDir := by
    rw [Listing.headerPaths, Listing.headerPaths, List.map_map, List.map_map]
    apply List.map_congr_left
    intro name hname
    simp only [Function.comp_apply,
      relative_file_movedTo h hlayout hsource hout root' (List.mem_append_right _ hname)]
  have hroot : ∀ r : Path, Path.relative (n.projectAt settings r.place).sourceDir
      (n.projectAt settings r.place).outputDir =
        Path.relative ⟨dirText n.source⟩ ⟨dirText n.output⟩ :=
    fun r => relative_projectAt r hsource hout
  have hrunner := testRunner_movedTo h hlayout root'
  have hlibraries := linkedLibraries_movedTo m.target s (n.projectAt settings root'.place).sourceDir
  simp only [ProjectFile.ofMember, Member.movedTo, Target.name_movedTo, Target.kind_movedTo,
    Target.id_movedTo, Target.manifest_movedTo, hbuilds, hsources, hheaders, hroot, hrunner,
    hlibraries]
  rfl

end Relocates

/-! ### Whole reports -/

/-- Reports that are the same but for where the source tree stands. -/
structure Report.SameAs (r r' : Report) : Prop where
  solution : ∃ sourceDir, r'.solution = r.solution.movedTo sourceDir
  fingerprint : r.fingerprint = r'.fingerprint
  projectFiles : r.projectFiles = r'.projectFiles

/-- No document shows where the source tree stands. -/
theorem Report.SameAs.document_eq {r r' : Report} (h : r.SameAs r') : r.document = r'.document := by
  obtain ⟨sourceDir, hsolution⟩ := h.solution
  rw [document, document, hsolution, Solution.document_movedTo, h.fingerprint, h.projectFiles]

variable {settings : Settings} {n : LayoutNames} {tree : FileTree} {fs fs' : FileSystem}
  {root root' : Path} {r : Report}

namespace Relocates

theorem create_eq_ok_iff (h : Relocates settings n tree fs fs' root root') {p : Project} :
    Project.create fs root settings = .ok p ↔
      fs.isDir (ofPlace (root.place ++ n.source)) = true ∧ n.projectAt settings root.place = p := by
  rw [Project.create_eq_projectAt h.layout h.isAbsolute h.node]
  cases fs.isDir (ofPlace (root.place ++ n.source)) with
  | true => simp
  | false => simp

/-- Opening the project goes well when its source directory is there, and only then
something is generated. -/
theorem generateAt_eq_ok_iff (h : Relocates settings n tree fs fs' root root') :
    Project.generateAt fs root settings = .ok r ↔
      fs.isDir (ofPlace (root.place ++ n.source)) = true ∧
        (n.projectAt settings root.place).generate fs = .ok r := by
  have hcreate := Project.create_eq_projectAt h.layout h.isAbsolute h.node
  unfold Project.generateAt
  rw [hcreate]
  cases fs.isDir (ofPlace (root.place ++ n.source)) with
  | true => simp
  | false => simp

/-- A report that is generated at one root is generated at the other, and they are
the same but for where the source tree stands. -/
theorem exists_report (h : Relocates settings n tree fs fs' root root')
    (hfit : FitAlike settings n tree root root') (hsource : ∃ name ∈ n.source, IsSolid name)
    (hout : ∃ name ∈ n.output, IsSolid name) (hr : Project.generateAt fs root settings = .ok r) :
    ∃ r', Project.generateAt fs' root' settings = .ok r' ∧ r.SameAs r' := by
  obtain ⟨hdir, hgenerate⟩ := h.generateAt_eq_ok_iff.mp hr
  obtain ⟨catalog, s, hscanned, hassemble, rfl⟩ := Project.generate_eq_ok_iff.mp hgenerate
  obtain ⟨seed, supply', hseed, hscan⟩ := Project.scanSeeded_eq_ok_iff.mp hscanned
  obtain ⟨entries, hnode⟩ : ∃ entries,
      fs.node? (n.projectAt settings root.place).sourceDir = .ok (.dir entries) :=
    FileSystem.exists_node_of_isDir hdir
  have hfind : tree.find? n.source = some (.dir entries) :=
    find?_of_node? h.isAbsolute h.node h.layout.sourceDir.isPlain hnode
  have hnode' : fs'.node? (n.projectAt settings root'.place).sourceDir = .ok (.dir entries) :=
    h.node?_source_relocates hfind hfit hnode
  obtain ⟨catalog', hscan', htargets⟩ := h.scan_relocates hfind hfit hout hnode hscan
  have hassemble' : Solution.assemble catalog' (.ofCatalog catalog') settings.solution.options =
      .ok (s.movedTo (n.projectAt settings root'.place).sourceDir) := by
    rw [Catalog.ofCatalog_movedTo htargets, Solution.assemble_movedTo htargets,
      show Solution.assemble catalog (.ofCatalog catalog) settings.solution.options = .ok s
        from hassemble]
    rfl
  have hfiles : (s.movedTo (n.projectAt settings root'.place).sourceDir).projectFiles
      (n.projectAt settings root'.place) = s.projectFiles (n.projectAt settings root.place) := by
    rw [Solution.projectFiles, Solution.projectFiles, Solution.movedTo, List.map_map]
    apply List.map_congr_left
    intro m hm
    obtain ⟨t, ht, rfl⟩ :=
      List.mem_map.mp ((Solution.members_assemble_perm hassemble).mem_iff.mp hm)
    obtain ⟨src, names, hlocates⟩ := Project.locates_of_scan (h.create_eq_ok_iff.mpr ⟨hdir, rfl⟩)
      (isAbsolute_ofPlace _) hnode (h.wellFormed.of_find? hfind) hscan ht
    exact ofMember_relocates root' hlocates h.layout hsource hout s
  have hdir' : fs'.isDir (n.projectAt settings root'.place).sourceDir = true := by
    rw [FileSystem.isDir, hnode']
    rfl
  have hscanned' : (n.projectAt settings root'.place).scanSeeded fs' = .ok catalog' :=
    Project.scanSeeded_eq_ok_iff.mpr ⟨seed, supply', hseed, hscan'⟩
  refine ⟨_, h.symm.generateAt_eq_ok_iff.mpr
    ⟨hdir', Project.generate_eq_ok_iff.mpr ⟨catalog', _, hscanned', hassemble', rfl⟩⟩, ?_⟩
  exact ⟨⟨_, rfl⟩, (Solution.fingerprint_movedTo s).symm, hfiles.symm⟩

end Relocates

/-- **A report does not tell the root**: where a project can be opened alike at two
roots, it is generated at both or at neither, and the reports are the same, as are
their documents. -/
theorem Project.generateAt_relocates (h : Relocates settings n tree fs fs' root root')
    (hfit : FitAlike settings n tree root root') (hsource : IsSolid settings.layout.sourceDir.text)
    (hout : IsSolid settings.layout.outputDir.text) :
    ((∃ r, generateAt fs root settings = .ok r) ↔ ∃ r', generateAt fs' root' settings = .ok r') ∧
      ∀ r r', generateAt fs root settings = .ok r → generateAt fs' root' settings = .ok r' →
        r.SameAs r' ∧ r.document = r'.document := by
  rw [h.layout.sourceDir.eq, isSolid_dirText_iff] at hsource
  rw [h.layout.outputDir.eq, isSolid_dirText_iff] at hout
  refine ⟨⟨?_, ?_⟩, ?_⟩
  · rintro ⟨r, hr⟩
    obtain ⟨r', hr', -⟩ := h.exists_report hfit hsource hout hr
    exact ⟨r', hr'⟩
  · rintro ⟨r', hr'⟩
    obtain ⟨r, hr, -⟩ := h.symm.exists_report hfit.symm hsource hout hr'
    exact ⟨r, hr⟩
  · intro r r' hr hr'
    obtain ⟨found, hfound, hsame⟩ := h.exists_report hfit hsource hout hr
    obtain rfl := Except.ok.inj (hfound.symm.trans hr')
    exact ⟨hsame, hsame.document_eq⟩

/-! ### A library and its test at two roots -/

def layoutNames (source output : String) : LayoutNames := ⟨[source], [output], ["out"]⟩

def layoutSettings (source output manifest : String) : Settings where
  layout := { sourceDir := ⟨source⟩, outputDir := ⟨output⟩, manifest }

theorem names_layoutSettings {source output manifest : String} (hsource : isPlain source = true)
    (houtput : isPlain output = true) (hmanifest : isPlain manifest = true) :
    (layoutSettings source output manifest).layout.Names (layoutNames source output) :=
  ⟨⟨List.cons_ne_nil _ _, List.forall_mem_singleton.mpr hsource, rfl⟩,
    ⟨List.cons_ne_nil _ _, List.forall_mem_singleton.mpr houtput, rfl⟩,
    ⟨List.cons_ne_nil _ _, List.forall_mem_singleton.mpr (by decide), rfl⟩, hmanifest⟩

/-- A place that is spelled by plain names and not too long. -/
def Usable (place : List String) : Prop :=
  (∀ s ∈ place, isPlain s = true) ∧ FileSystem.refusal? (ofPlace place) = none

instance (place : List String) : Decidable (Usable place) :=
  inferInstanceAs (Decidable (_ ∧ _))

/-- A directory of which nothing but the way to it is there. -/
def aloneAt (place : List String) (entries : List (String × FileTree)) : FileSystem where
  tree := .nest place (.dir entries)

/-- What stands alone at a usable place is found there. -/
theorem node?_aloneAt {place : List String} (entries : List (String × FileTree))
    (h : Usable place) : (aloneAt place entries).node? (ofPlace place) = .ok (.dir entries) := by
  obtain ⟨top, htop⟩ : ∃ top, (aloneAt place entries).tree = .dir top := by
    cases place with
    | nil => exact ⟨_, rfl⟩
    | cons first place => exact ⟨_, rfl⟩
  have hfind := FileTree.find?_nest_append place [] (.dir entries)
  rw [List.append_nil] at hfind
  exact FileSystem.node?_ofPlace_of_find? htop h.1 hfind h.2

def includeContent : ByteArray := "INCLUDE_DIRS = $(ROOT)/inc".toUTF8

/-- The manifest of the library names a directory below the root, and not the root
itself. -/
theorem not_namesBareRoot_includeContent (text : String)
    (h : String.fromUTF8? includeContent = some text) : ¬ Manifest.NamesBareRoot text := by
  have htext : String.fromUTF8? includeContent = some "INCLUDE_DIRS = $(ROOT)/inc" := by
    decide +kernel
  obtain rfl := Option.some.inj (h.symm.trans htext)
  rintro ⟨value, hvalue, token, htoken, rest, hrest, hbare⟩
  have hone : (Manifest.valuesOf (Manifest.linesOf "INCLUDE_DIRS = $(ROOT)/inc") .includeDirs).map
      Manifest.tokens = some ["$(ROOT)/inc"] := by cbv
  rw [hvalue, Option.map_some, Option.some.injEq] at hone
  obtain rfl : token = "$(ROOT)/inc" := by simpa [hone] using htoken
  have hmem : 'i' ∈ rest := by
    have hdrop := congrArg (List.drop Manifest.rootToken.length) hrest
    rw [List.drop_left] at hdrop
    rw [← hdrop]
    decide
  rcases hbare 'i' hmem with h | h
  · contradiction
  · contradiction

def coreTestEntries : List (String × FileTree) := [("t.cpp", .file .empty)]

/-- The directory of a library, with a header and with a manifest that names a
directory below the root. The test of the library stands in it. -/
def coreEntries : List (String × FileTree) :=
  [("build.mk", .file includeContent), ("core.cpp", .file .empty), ("core.hpp", .file .empty),
    ("test", .dir coreTestEntries)]

def coreTree : FileTree := .dir [("core", .dir coreEntries)]

def coreAt (place : List String) : FileSystem := aloneAt place [("src", coreTree)]

theorem wellFormed_coreEntries : (FileTree.dir coreEntries).WellFormed := by
  have htest : (FileTree.dir coreTestEntries).WellFormed :=
    FileTree.wellFormed_nest (by decide : ∀ name ∈ ["t.cpp"], isPlain name = true) (.file .empty)
  refine .dir (by decide) (by decide) ?_
  simpa [coreEntries] using
    ⟨FileTree.WellFormed.file includeContent, FileTree.WellFormed.file .empty, htest⟩

theorem wellFormed_coreTree : coreTree.WellFormed :=
  FileTree.wellFormed_nest (by decide : ∀ name ∈ ["core"], isPlain name = true) wellFormed_coreEntries

/-- The directories of the source tree. -/
theorem find?_coreTree_dir {names : List String} {entries : List (String × FileTree)}
    (h : coreTree.find? names = some (.dir entries)) :
    names = [] ∧ entries = [("core", .dir coreEntries)] ∨
      names = ["core"] ∧ entries = coreEntries ∨
        names = ["core", "test"] ∧ entries = coreTestEntries := by
  cases names with
  | nil => exact .inl ⟨rfl, (FileTree.dir.inj (Option.some.inj h)).symm⟩
  | cons name names =>
    obtain ⟨next, hnext, h⟩ := wellFormed_coreTree.find?_cons_iff.mp h
    obtain ⟨rfl, rfl⟩ := Prod.mk.inj (List.mem_singleton.mp hnext)
    cases names with
    | nil => exact .inr (.inl ⟨rfl, (FileTree.dir.inj (Option.some.inj h)).symm⟩)
    | cons name names =>
      obtain ⟨next, hnext, h⟩ := wellFormed_coreEntries.find?_cons_iff.mp h
      simp only [coreEntries, List.mem_cons, Prod.mk.injEq, List.not_mem_nil, or_false] at hnext
      obtain ⟨rfl, rfl⟩ | ⟨rfl, rfl⟩ | ⟨rfl, rfl⟩ | ⟨rfl, rfl⟩ := hnext
      · simp [FileTree.find?_file_iff] at h
      · simp [FileTree.find?_file_iff] at h
      · simp [FileTree.find?_file_iff] at h
      · cases names with
        | nil => exact .inr (.inr ⟨rfl, (FileTree.dir.inj (Option.some.inj h)).symm⟩)
        | cons name names =>
          rw [coreTestEntries, FileTree.find?_singleton_cons] at h
          split at h
          · simp [FileTree.find?_file_iff] at h
          · contradiction

/-- The source tree has one manifest. -/
theorem find?_coreTree_manifest {names : List String} {content : ByteArray}
    (h : coreTree.find? (names ++ ["build.mk"]) = some (.file content)) :
    content = includeContent := by
  obtain ⟨entries, hdir⟩ := FileTree.exists_dir_of_find?_concat h
  have hmem := (wellFormed_coreTree.find?_concat_iff hdir).mp h
  obtain ⟨-, rfl⟩ | ⟨-, rfl⟩ | ⟨-, rfl⟩ := find?_coreTree_dir hdir
  · simp at hmem
  · simpa [coreEntries] using hmem
  · simp [coreTestEntries] at hmem

/-- The library and its test are one project at all usable places. -/
theorem relocates_core {place place' : List String} (hplace : Usable place)
    (hplace' : Usable place') :
    Relocates (layoutSettings "src" "bin" "build.mk") (layoutNames "src" "bin")
      (.dir [("src", coreTree)]) (coreAt place) (coreAt place') (ofPlace place)
      (ofPlace place') where
  layout := names_layoutSettings (by decide) (by decide) (by decide)
  wellFormed :=
    FileTree.wellFormed_nest (by decide : ∀ name ∈ ["src"], isPlain name = true)
      wellFormed_coreTree
  isAbsolute := isAbsolute_ofPlace place
  isAbsolute' := isAbsolute_ofPlace place'
  node := node?_aloneAt _ hplace
  node' := node?_aloneAt _ hplace'
  includes := by
    intro names content text hfind htext
    have hbelow : coreTree.find? (names ++ ["build.mk"]) = some (.file content) := by
      rw [← hfind]
      exact (FileTree.find?_singleton_cons "src" "src" _ coreTree).symm
    obtain rfl := find?_coreTree_manifest hbelow
    exact not_namesBareRoot_includeContent text htext

/-- All directories of the source tree fit at both roots, and so do the manifests in
them. -/
theorem fitAlike_core :
    FitAlike (layoutSettings "src" "bin" "build.mk") (layoutNames "src" "bin")
      (.dir [("src", coreTree)]) (ofPlace []) (ofPlace ["w"]) := by
  intro names entries hfind
  have hbelow : coreTree.find? names = some (.dir entries) := by
    rw [← hfind]
    exact (FileTree.find?_singleton_cons "src" "src" _ coreTree).symm
  obtain ⟨rfl, -⟩ | ⟨rfl, -⟩ | ⟨rfl, -⟩ := find?_coreTree_dir hbelow
  all_goals exact ⟨iff_of_true (by decide) (by decide), iff_of_true (by decide) (by decide)⟩

namespace Project

def core : Project :=
  (layoutNames "src" "bin").projectAt (layoutSettings "src" "bin" "build.mk") []

def coreLibrary : Row := ⟨"core", "core", .library, { includeDirs := ["../inc"] }, none⟩

def coreTest : Row := ⟨"core/test", "core_test", .test, {}, some ⟨"core", "core", []⟩⟩

theorem node?_core : (coreAt []).node? core.sourceDir = .ok coreTree := by rfl

/-- A scan finds the library with the include directory that its manifest names, and
the test with the library as its owner. -/
theorem rows_of_scan_core (supply : Identifier.Supply) :
    ∃ catalog supply', core.scan (coreAt []) supply = (.ok catalog, supply') ∧
      catalog.targets.map Target.row = [coreLibrary, coreTest] := by
  have hbelow : walk (Scanner.keeps ⟨core, []⟩) (core.sourceDir.child "core") (.dir coreEntries) =
      [⟨"/src/core"⟩, ⟨"/src/core/test"⟩] := by
    rw [walk_dir_of_sorted (by decide)]
    decide +kernel
  have hwalk : walk (Scanner.keeps ⟨core, []⟩) core.sourceDir coreTree =
      [⟨"/src"⟩, ⟨"/src/core"⟩, ⟨"/src/core/test"⟩] := by
    rw [coreTree, walk_dir_of_sorted (by decide), walkEntries, hbelow]
    decide +kernel
  have hsurvey := survey_of_walk rfl node?_core hwalk (by decide +kernel)
  exact exists_catalog_of_rows hsurvey (by decide +kernel) (.refl _) (by decide) (by decide) supply

/-- The files of the library. -/
theorem files_of_scan_core {catalog : Catalog} {supply supply' : Identifier.Supply}
    (h : core.scan (coreAt []) supply = (.ok catalog, supply')) {t : Target}
    (ht : t ∈ catalog.targets) (hdir : t.relativeDir = "core") :
    t.files = ⟨⟨"/src/core"⟩, ["core.cpp"], ["core.hpp"], ["build.mk"]⟩ := by
  obtain ⟨names, entries, hfind, hnames, hfiles⟩ :=
    files_of_scan node?_core wellFormed_coreTree h ht
  rw [hfiles]
  rw [hdir] at hnames
  obtain ⟨rfl, -⟩ | ⟨rfl, rfl⟩ | ⟨rfl, -⟩ := find?_coreTree_dir hfind
  · exact absurd hnames (by decide)
  · decide +kernel
  · exact absurd hnames (by decide)

/-- At `/` and at `/w` the report has the same project files: they have the source,
the header and the include directories of the library, and the test that links it.
-/
theorem generateAt_relocates_core :
    Relocates (layoutSettings "src" "bin" "build.mk") (layoutNames "src" "bin")
        (.dir [("src", coreTree)]) (coreAt []) (coreAt ["w"]) (ofPlace []) (ofPlace ["w"]) ∧
      ∃ r r', generateAt (coreAt []) (ofPlace []) (layoutSettings "src" "bin" "build.mk") = .ok r ∧
        generateAt (coreAt ["w"]) (ofPlace ["w"]) (layoutSettings "src" "bin" "build.mk") = .ok r' ∧
        r.SameAs r' ∧ r.document = r'.document ∧
        ∃ f ∈ r'.projectFiles, f.compileItems = [{ path := "../src/core/core.cpp" }] ∧
          f.includeItems = ["../src/core/core.hpp"] ∧ f.includeDirs = ["../src", "../inc"] ∧
          ∃ g ∈ r'.projectFiles, g.kind = .test ∧ g.linkLibraries = ["core.lib"] := by
  have h : Relocates (layoutSettings "src" "bin" "build.mk") (layoutNames "src" "bin")
      (.dir [("src", coreTree)]) (coreAt []) (coreAt ["w"]) (ofPlace []) (ofPlace ["w"]) :=
    relocates_core (by decide) (by decide)
  have hsource : IsSolid "src" := by decide
  have houtput : IsSolid "bin" := by decide
  obtain ⟨hboth, hsame⟩ := generateAt_relocates h fitAlike_core hsource houtput
  obtain ⟨catalog, s, hscan, hrows, hassemble, hgenerate⟩ :=
    exists_report_of_scan rfl (by decide +kernel) rows_of_scan_core
  have hr := h.generateAt_eq_ok_iff.mpr ⟨by decide +kernel, hgenerate⟩
  obtain ⟨r', hr'⟩ := hboth.mp ⟨_, hr⟩
  obtain ⟨hsameAs, hdocument⟩ := hsame _ r' hr hr'
  refine ⟨h, _, r', hr, hr', hsameAs, hdocument, ?_⟩
  rw [← hsameAs.projectFiles]
  obtain ⟨m, hm, hdir, hname, hlibrary, hmanifest, -⟩ := Solution.exists_member_of_row hassemble
    hrows (by decide : coreLibrary ∈ [coreLibrary, coreTest])
  obtain ⟨n, hn, -, -, htest, -, howner⟩ := Solution.exists_member_of_row hassemble hrows
    (by decide : coreTest ∈ [coreLibrary, coreTest])
  obtain ⟨seed, supply', -, hscan⟩ := scanSeeded_eq_ok_iff.mp hscan
  have hmem := (Solution.targets_perm hassemble).mem_iff.mp (List.mem_map_of_mem hm)
  have hfiles := files_of_scan_core hscan hmem hdir
  have hrun : n.target.kind.isRunnable = true := by
    rw [htest]
    rfl
  have hlinks := ProjectFile.linkedLibraries_of_owned hrun howner
    ((Solution.find?_eq_some_iff hassemble).mpr ⟨hm, hname⟩)
  refine ⟨_, List.mem_map_of_mem hm, ?_, ?_, ?_, _, List.mem_map_of_mem hn, htest, ?_⟩
  · simp only [ProjectFile.ofMember, hlibrary, hfiles]
    rw [if_neg (by decide)]
    decide +kernel
  · simp only [ProjectFile.ofMember, hlibrary, hfiles]
    decide +kernel
  · simp only [ProjectFile.ofMember, hmanifest]
    decide +kernel
  · rw [ProjectFile.ofMember, hlinks, Target.linked, hname, hlibrary]
    rfl

end Project

/-! ### A project of one source -/

def oneFile (names : List String) (content : ByteArray) : FileSystem where
  tree := .nest names (.file content)

theorem node?_oneFile {content : ByteArray} {place : List String} {first name : String}
    (h : Usable place) :
    (oneFile (place ++ [first, name]) content).node? (ofPlace place) =
      .ok (.nest [first, name] (.file content)) := by
  have hsame : oneFile (place ++ [first, name]) content =
      aloneAt place [(first, .dir [(name, .file content)])] := by
    rw [oneFile, aloneAt, FileTree.nest_append]
    rfl
  rw [hsame]
  exact node?_aloneAt _ h

/-- A source in the source directory is one project at all places where it is put.
-/
theorem relocates_oneFile (source output manifest : String) {content : ByteArray}
    (place place' : List String)
    (hplain : isPlain source = true ∧ isPlain output = true ∧ isPlain manifest = true)
    (hcontent : ∀ text, String.fromUTF8? content = some text → ¬ Manifest.NamesBareRoot text)
    (hplace : Usable place) (hplace' : Usable place') :
    Relocates (layoutSettings source output manifest) (layoutNames source output)
      (.nest [source, "a.cpp"] (.file content)) (oneFile (place ++ [source, "a.cpp"]) content)
      (oneFile (place' ++ [source, "a.cpp"]) content) (ofPlace place) (ofPlace place') where
  layout := names_layoutSettings hplain.1 hplain.2.1 hplain.2.2
  wellFormed := FileTree.wellFormed_nest (by simpa using ⟨hplain.1, by decide⟩) (.file content)
  isAbsolute := isAbsolute_ofPlace place
  isAbsolute' := isAbsolute_ofPlace place'
  node := node?_oneFile hplace
  node' := node?_oneFile hplace'
  includes := by
    intro below found text hfind htext
    obtain ⟨rest, -, hfound⟩ := FileTree.exists_of_find?_nest_file hfind
    cases rest with
    | nil =>
      obtain rfl := FileTree.file.inj hfound
      exact hcontent text htext
    | cons first rest => simp [FileTree.nest] at hfound

/-! ### Names that are lost, and roots that are too long -/

theorem not_namesBareRoot_empty (text : String) (h : String.fromUTF8? .empty = some text) :
    ¬ Manifest.NamesBareRoot text := by
  have hempty : String.fromUTF8? .empty = some "" := by decide +kernel
  obtain rfl := Option.some.inj (h.symm.trans hempty)
  rintro ⟨value, hvalue, -⟩
  have hnone : Manifest.valuesOf (Manifest.linesOf "") .includeDirs = none := by cbv
  rw [hnone] at hvalue
  contradiction

/-- An empty source in the source directory of the project at a place. -/
def emptySourceAt (source : String) (place : List String) : FileSystem :=
  oneFile (place ++ [source, "a.cpp"]) .empty

/-- The include directories of each project file that is generated there. -/
def includeDirsAt (source output : String) (place : List String) : Option (List (List String)) :=
  match Project.generateAt (emptySourceAt source place) (ofPlace place)
      (layoutSettings source output "build.mk") with
  | .ok r => some (r.projectFiles.map ProjectFile.includeDirs)
  | .error _ => none

/-- An empty source at two places is one project at two roots. -/
def EmptySourceRelocates (source output : String) (place place' : List String) : Prop :=
  Relocates (layoutSettings source output "build.mk") (layoutNames source output)
    (.nest [source, "a.cpp"] (.file .empty)) (emptySourceAt source place)
    (emptySourceAt source place') (ofPlace place) (ofPlace place')

/-- Nothing is generated where the path of the source directory is too long. -/
theorem includeDirsAt_of_not_fits {source output : String} {place place' : List String}
    (h : EmptySourceRelocates source output place place')
    (hfits : ¬ (ofPlace place').Fits [source]) :
    includeDirsAt source output place' = none := by
  unfold includeDirsAt
  split
  next r hr =>
    obtain ⟨hdir, -⟩ := (Relocates.symm h).generateAt_eq_ok_iff.mp hr
    obtain ⟨entries, hnode⟩ := FileSystem.exists_node_of_isDir hdir
    exact absurd (fits_of_node? hnode) hfits
  · rfl

/-- So many directories in one another that no name of two letters can be looked up
below them. -/
def deepPlace : List String := List.replicate 2047 "d"

theorem eq_of_mem_deepPlace {s : String} (h : s ∈ deepPlace) : s = "d" :=
  List.eq_of_mem_replicate h

theorem width_deepPlace : width deepPlace = 4094 := by
  rw [width, deepPlace, List.map_replicate, List.sum_replicate_nat]
  rfl

theorem nul_notMem_deepPlace : ∀ s ∈ deepPlace, '\x00' ∉ s.toList := by
  intro s hs
  rw [eq_of_mem_deepPlace hs]
  decide

theorem usable_deepPlace : Usable deepPlace := by
  have hne : deepPlace ≠ [] := List.ne_nil_of_mem (List.mem_replicate.mpr ⟨by decide, rfl⟩)
  constructor
  · intro s hs
    rw [eq_of_mem_deepPlace hs]
    decide
  · rw [FileSystem.refusal?_ofPlace_eq_none_iff hne nul_notMem_deepPlace, width_deepPlace]
    decide

theorem not_fits_deepPlace : ¬ (ofPlace deepPlace).Fits ["src"] := by
  have hnul : ∀ s ∈ deepPlace ++ ["src"], '\x00' ∉ s.toList :=
    List.forall_mem_append.mpr
      ⟨nul_notMem_deepPlace, List.forall_mem_singleton.mpr (by decide)⟩
  rw [Fits, place_ofPlace_of_isPlain usable_deepPlace.1,
    FileSystem.refusal?_ofPlace_eq_none_iff (List.concat_ne_nil _ _) hnul, width_append,
    width_deepPlace]
  decide

theorem emptySourceRelocates_deepPlace : EmptySourceRelocates "src" "bin" [] deepPlace :=
  relocates_oneFile "src" "bin" "build.mk" [] deepPlace (by decide) not_namesBareRoot_empty
    (by decide) usable_deepPlace

/-- **What tells the root**: a source directory or an output directory of which the
name is a backslash, and a root below which the source directory cannot be looked
up. -/
theorem Project.not_generateAt_relocates :
    (EmptySourceRelocates "\\" "bin" ["a"] ["b"] ∧
      includeDirsAt "\\" "bin" ["a"] = some [["../../a"]] ∧
      includeDirsAt "\\" "bin" ["b"] = some [["../../b"]]) ∧
    (EmptySourceRelocates "src" "\\" [] ["b"] ∧
      includeDirsAt "src" "\\" [] = some [["../src"]] ∧
      includeDirsAt "src" "\\" ["b"] = some [["src"]]) ∧
    (EmptySourceRelocates "src" "bin" [] deepPlace ∧
      includeDirsAt "src" "bin" [] = some [["../src"]] ∧
      includeDirsAt "src" "bin" deepPlace = none) := by
  refine ⟨⟨?_, ?_, ?_⟩, ⟨?_, ?_, ?_⟩, ?_, ?_, ?_⟩
  · exact relocates_oneFile "\\" "bin" "build.mk" ["a"] ["b"] (by decide)
      not_namesBareRoot_empty (by decide) (by decide)
  · decide +kernel
  · decide +kernel
  · exact relocates_oneFile "src" "\\" "build.mk" [] ["b"] (by decide)
      not_namesBareRoot_empty (by decide) (by decide)
  · decide +kernel
  · decide +kernel
  · exact emptySourceRelocates_deepPlace
  · decide +kernel
  · exact includeDirsAt_of_not_fits emptySourceRelocates_deepPlace not_fits_deepPlace

end SolutionTree
