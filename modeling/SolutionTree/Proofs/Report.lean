import SolutionTree.Proofs.Scan.Identifiers
import SolutionTree.Proofs.Solution.Members
import SolutionTree.Report

/-!
What a report refers to.

A run that succeeds has scanned the source tree and assembled the solution of what
it found (`scanSeeded_eq_ok_iff`, `generate_eq_ok_iff`). The report that it gives is
coherent: the project files are those of the solution's members, no two of them have
a name, a file name or an identifier in common, and whatever one of them refers to
is another one (`coherent_of_generate`).
-/

namespace SolutionTree

/-! ### Runs -/

/-- A solution has a member for each row of its catalog. -/
theorem Solution.size_eq_of_rows {c : Catalog} {d : Dependencies} {options : SolutionOptions}
    {s : Solution} {rows : List Row} (h : assemble c d options = .ok s)
    (hrows : c.targets.map Target.row = rows) : s.size = rows.length := by
  rw [size_eq h, Catalog.size_eq_length, ← hrows, List.length_map]

/-- Each row of a catalog is that of a member of the solution. -/
theorem Solution.exists_member_of_row {c : Catalog} {d : Dependencies} {options : SolutionOptions}
    {s : Solution} {rows : List Row} (h : assemble c d options = .ok s)
    (hrows : c.targets.map Target.row = rows) {row : Row} (hrow : row ∈ rows) :
    ∃ m ∈ s.members, m.target.relativeDir = row.relativeDir ∧ m.target.name = row.name ∧
      m.target.kind = row.kind ∧ m.target.manifest = row.manifest ∧
        m.target.owner = row.owner := by
  rw [← hrows] at hrow
  obtain ⟨t, ht, rfl⟩ := List.mem_map.mp hrow
  exact ⟨_, (mem_members_iff h).mpr ⟨t, ht, rfl⟩, rfl, rfl, rfl, rfl, rfl⟩

namespace Project

variable {p : Project} {fs : FileSystem} {catalog : Catalog} {r : Report}

/-- A seeded scan goes well when the seed can be read and the scan with the
identifiers that follow it goes well. -/
theorem scanSeeded_eq_ok_iff :
    p.scanSeeded fs = .ok catalog ↔
      ∃ seed supply', Settings.seed p.settings.solution = .ok seed ∧
        p.scan fs ⟨seed⟩ = (.ok catalog, supply') := by
  unfold scanSeeded catalogOf scan
  cases Settings.seed p.settings.solution with
  | error fault => simp
  | ok seed =>
    cases p.survey fs with
    | error fault => simp
    | ok survey =>
      cases henroll : survey.enroll ⟨seed⟩ with
      | mk result supply' =>
        cases result with
        | error fault => simp [Except.mapError, henroll]
        | ok found => simp [Except.mapError, henroll]

/-- A report is made of a catalog that was scanned and a solution that was
assembled; nothing else of the run can fail. -/
theorem generate_eq_ok_iff :
    p.generate fs = .ok r ↔ ∃ catalog s, p.scanSeeded fs = .ok catalog ∧
      Solution.assemble catalog (.ofCatalog catalog) p.settings.solution.options = .ok s ∧
        r = ⟨s, s.fingerprint, s.projectFiles p⟩ := by
  unfold generate
  cases p.scanSeeded fs with
  | error e => simp
  | ok catalog =>
    unfold reportOf
    cases hs : Solution.assemble catalog (.ofCatalog catalog) p.settings.solution.options with
    | error fault => simp [Except.mapError, hs]
    | ok s => simp [Except.mapError, hs, eq_comm]

/-- A project that asks for no main target has a report if it can be scanned. The
witnesses of reports are made of scans with it. -/
theorem exists_report_of_scan {holds : Catalog → Prop} (hmain : p.settings.solution.main = none)
    (hseed : (Settings.seed p.settings.solution).isOk = true)
    (hscan : ∀ supply, ∃ catalog supply', p.scan fs supply = (.ok catalog, supply') ∧
      holds catalog) :
    ∃ catalog s, p.scanSeeded fs = .ok catalog ∧ holds catalog ∧
      Solution.assemble catalog (.ofCatalog catalog) p.settings.solution.options = .ok s ∧
      p.generate fs = .ok ⟨s, s.fingerprint, s.projectFiles p⟩ := by
  cases hsettings : Settings.seed p.settings.solution with
  | error fault =>
    rw [hsettings] at hseed
    contradiction
  | ok seed =>
    obtain ⟨catalog, supply', hfound, hholds⟩ := hscan ⟨seed⟩
    have hseeded : p.scanSeeded fs = .ok catalog :=
      scanSeeded_eq_ok_iff.mpr ⟨seed, supply', hsettings, hfound⟩
    have hselect : catalog.selectMain p.settings.solution.options.main =
        .ok (catalog.onlyExecutable?.map Target.name) := by
      rw [SolutionSettings.options, hmain]
      rfl
    obtain ⟨s, hassemble⟩ : ∃ s, Solution.assemble catalog (.ofCatalog catalog)
        p.settings.solution.options = .ok s :=
      ⟨_, Solution.assemble_eq_ok_iff.mpr ⟨_, hselect, rfl⟩⟩
    exact ⟨catalog, s, hseeded, hholds, hassemble,
      generate_eq_ok_iff.mpr ⟨catalog, s, hseeded, hassemble, rfl⟩⟩

end Project

/-! ### Linked libraries -/

/-- The libraries that linking a target takes: its own, if it is one. -/
def Target.linked (t : Target) : List String :=
  if t.kind = .library then [t.name ++ ".lib"] else []

namespace ProjectFile

variable {t : Target} {s : Solution} {n : Member} {owner : Owner}

/-- A runnable links the library of the member that has its owner's name, and
nothing if that is no library. -/
theorem linkedLibraries_of_owned (hrun : t.kind.isRunnable = true) (howner : t.owner = some owner)
    (hfind : s.find? owner.name = some n) : linkedLibraries t s = n.target.linked := by
  rw [linkedLibraries, Catalog.runnableOwner?_eq_some_iff.mpr ⟨hrun, howner⟩, Option.bind_some,
    hfind]
  rfl

theorem linkedLibraries_of_alone (hrun : t.kind.isRunnable = true) (howner : t.owner = some owner)
    (hfind : s.find? owner.name = none) : linkedLibraries t s = [] := by
  rw [linkedLibraries, Catalog.runnableOwner?_eq_some_iff.mpr ⟨hrun, howner⟩, Option.bind_some,
    hfind]

/-- A linked library is that of a member, and the member is a library. -/
theorem exists_member_of_linked {file : String} (h : file ∈ linkedLibraries t s) :
    ∃ m ∈ s.members, m.target.kind = .library ∧ file = m.target.name ++ ".lib" := by
  unfold linkedLibraries at h
  split at h
  next => simp at h
  next m hm =>
    obtain ⟨owner, -, hfind⟩ := Option.bind_eq_some_iff.mp hm
    split at h
    next hkind =>
      exact ⟨m, List.mem_of_find?_eq_some hfind, hkind, List.mem_singleton.mp h⟩
    next => simp at h

end ProjectFile

/-! ### Coherence -/

/-- A project file that says of its target what the solution says. -/
structure ProjectFile.AgreesWith (f : ProjectFile) (m : Member) : Prop where
  name : f.name = m.target.name
  fileName : f.fileName = m.fileName
  id : f.id = m.target.id
  references : f.references = m.references

/-- A report in which everything that is referred to stands once. -/
structure Report.Coherent (r : Report) : Prop where
  agrees : List.Forall₂ ProjectFile.AgreesWith r.projectFiles r.solution.members
  names : (r.projectFiles.map ProjectFile.name).Nodup
  fileNames : (r.projectFiles.map ProjectFile.fileName).Nodup
  ids : (r.projectFiles.map ProjectFile.id).Nodup
  references : ∀ f ∈ r.projectFiles, ∀ reference ∈ f.references,
    ∃! g, g ∈ r.projectFiles ∧ g.name = reference.name ∧ g.id = reference.id
  libraries : ∀ f ∈ r.projectFiles, ∀ file ∈ f.linkLibraries,
    ∃ g ∈ r.projectFiles, g.kind = .library ∧ file = g.name ++ ".lib"

namespace Solution

variable {p : Project} {c : Catalog} {d : Dependencies} {options : SolutionOptions} {s : Solution}

/-- What a project file has of its member can be read off the members. -/
theorem map_projectFiles {α : Type} {f : ProjectFile → α} {g : Member → α}
    (h : ∀ m, f (ProjectFile.ofMember p s m) = g m) :
    (s.projectFiles p).map f = s.members.map g := by
  rw [projectFiles, List.map_map]
  exact List.map_congr_left fun m _ => h m

/-- The project files of a solution are coherent if the identifiers of its targets
are different. -/
theorem coherent_projectFiles (h : assemble c d options = .ok s)
    (hids : (c.targets.map Target.id).Nodup) :
    Report.Coherent ⟨s, s.fingerprint, s.projectFiles p⟩ := by
  have hnames : ((s.projectFiles p).map ProjectFile.name).Nodup := by
    rw [map_projectFiles (g := fun m => m.target.name) fun _ => rfl]
    exact nodup_names h
  have hmem : ∀ m ∈ s.members, ProjectFile.ofMember p s m ∈ s.projectFiles p := fun m hm =>
    List.mem_map_of_mem hm
  constructor
  · show List.Forall₂ _ (s.members.map _) s.members
    rw [List.forall₂_map_left_iff, List.forall₂_same]
    exact fun m _ => ⟨rfl, rfl, rfl, rfl⟩
  · exact hnames
  · show ((s.projectFiles p).map ProjectFile.fileName).Nodup
    rw [map_projectFiles (g := Member.fileName) fun _ => rfl]
    exact nodup_fileNames h
  · show ((s.projectFiles p).map ProjectFile.id).Nodup
    have hperm := (targets_perm h).map Target.id
    rw [List.map_map] at hperm
    rw [map_projectFiles (g := Target.id ∘ Member.target) fun _ => rfl]
    exact hperm.nodup_iff.mpr hids
  · intro f hf reference hreference
    obtain ⟨m, hm, rfl⟩ := List.mem_map.mp hf
    obtain ⟨n, hn, rfl⟩ := exists_member_of_reference h hm hreference
    refine ⟨ProjectFile.ofMember p s n, ⟨hmem n hn, rfl, rfl⟩, ?_⟩
    rintro g ⟨hg, hname, -⟩
    exact List.inj_on_of_nodup_map hnames hg (hmem n hn) hname
  · intro f hf file hfile
    obtain ⟨m, hm, rfl⟩ := List.mem_map.mp hf
    obtain ⟨n, hn, hkind, rfl⟩ := ProjectFile.exists_member_of_linked hfile
    exact ⟨ProjectFile.ofMember p s n, hmem n hn, hkind, rfl⟩

end Solution

namespace Project

variable {p : Project} {fs : FileSystem} {r : Report}

/-- **Every report is coherent**, as long as there are identifiers for all its
targets. -/
theorem coherent_of_generate (h : p.generate fs = .ok r) (hsize : r.solution.size < 2 ^ 128) :
    r.Coherent := by
  obtain ⟨catalog, s, hscan, hassemble, rfl⟩ := generate_eq_ok_iff.mp h
  obtain ⟨seed, supply', -, hscan⟩ := scanSeeded_eq_ok_iff.mp hscan
  refine Solution.coherent_projectFiles hassemble ?_
  rw [(ids_of_scan hscan).1]
  exact Identifier.Supply.nodup_take _ (Solution.size_eq hassemble ▸ hsize.le)

/-- A test that refers to the library above it and links it. -/
theorem coherent_of_generate_hyphen :
    ∃ r, hyphen.generate hyphenFiles = .ok r ∧ r.solution.size < 2 ^ 128 ∧ r.Coherent ∧
      ∃ f ∈ r.projectFiles, ∃ g ∈ r.projectFiles, f.kind = .test ∧ g.kind = .library ∧
        f.references = [⟨g.name, g.id⟩] ∧ f.linkLibraries = ["a.lib"] ∧ g.name = "a" := by
  obtain ⟨catalog, s, hscan, hrows, hassemble, h⟩ :=
    exists_report_of_scan rfl (by decide +kernel) rows_of_scan_hyphen
  have hfew : s.size < 2 ^ 128 := by
    rw [Solution.size_eq_of_rows hassemble hrows]
    decide
  have hmem : ∀ m ∈ s.members, ProjectFile.ofMember hyphen s m ∈ s.projectFiles hyphen :=
    fun m hm => List.mem_map_of_mem hm
  obtain ⟨m, hm, -, -, htest, -, howner⟩ := Solution.exists_member_of_row hassemble hrows
    (by decide : hyphenTest ∈ hyphenRows)
  obtain ⟨n, hn, -, hname, hlibrary, -, -⟩ := Solution.exists_member_of_row hassemble hrows
    (by decide : hyphenLibrary ∈ hyphenRows)
  have hrun : m.target.kind.isRunnable = true := by
    rw [htest]
    rfl
  have hlinks := ProjectFile.linkedLibraries_of_owned hrun howner
    ((Solution.find?_eq_some_iff hassemble).mpr ⟨hn, hname⟩)
  obtain ⟨t, ht, rfl⟩ := (Solution.mem_members_iff hassemble).mp hm
  obtain ⟨u, hu, rfl⟩ := (Solution.mem_members_iff hassemble).mp hn
  obtain ⟨seed, supply', -, hscan⟩ := scanSeeded_eq_ok_iff.mp hscan
  have hdirs := nodup_directories_of_scan node?_hyphen wellFormed_hyphenTree hscan
  have hreferences := Catalog.references_of_owned hdirs ht hrun howner .nil hu hname
    hyphen.settings.solution.options.extension
  refine ⟨_, h, hfew, coherent_of_generate h hfew, _, hmem _ hm, _, hmem _ hn, htest, hlibrary,
    hreferences, ?_, hname⟩
  rw [ProjectFile.ofMember, hlinks, Target.linked, hname, hlibrary]
  rfl

end Project

end SolutionTree
