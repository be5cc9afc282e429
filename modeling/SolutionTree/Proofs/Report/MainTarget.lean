import SolutionTree.Command.Run
import SolutionTree.Proofs.Report
import SolutionTree.Proofs.Scan.Owners
import SolutionTree.Proofs.Solution.Emission

/-!
The main target, and the only way in which a run fails after its scan.

A text that is asked for as the main target has to be the name of a library or an
executable (`AsksInVain`); the main target is the one of that name, or else the only
executable (`HasMain`). `selectMain` agrees with both (`selectMain_eq_error_iff`,
`hasMain_of_selectMain`), and nothing else of what follows a scan can fail: neither
names that stand for no target nor cycles are in its way, although the journal tells
of them (`generate_of_scanSeeded`). A main target stands first in its solution
(`exists_members_of_main`).
-/

namespace SolutionTree

/-! ### What is asked for -/

/-- A text is asked for as the main target, and no library or executable has it for
a name. -/
structure Catalog.AsksInVain (c : Catalog) (wanted : Option String) (name : String) : Prop where
  asked : wanted = some name
  nonempty : name ≠ ""
  in_vain : ∀ t ∈ c.targets, t.kind = .library ∨ t.kind = .executable → t.name ≠ name

/-- The main target of a catalog: the one that is asked for by a text that is not
empty; else the executable of a catalog that has exactly one; else none. -/
inductive Catalog.HasMain (c : Catalog) (wanted : Option String) : Option String → Prop where
  | asked {name : String} : wanted = some name → name ≠ "" → HasMain c wanted (some name)
  | only {t : Target} : (∀ name, wanted = some name → name = "") →
      (∀ u, u ∈ c.targets ∧ u.kind = .executable ↔ u = t) → HasMain c wanted (some t.name)
  | absent : (∀ name, wanted = some name → name = "") →
      (¬ ∃! t, t ∈ c.targets ∧ t.kind = .executable) → HasMain c wanted none

namespace Catalog

variable {c : Catalog} {wanted : Option String} {name : String} {t : Target}

theorem AsksInVain.unique {other : String} (h : c.AsksInVain wanted name)
    (h' : c.AsksInVain wanted other) : name = other :=
  Option.some.inj (h.asked.symm.trans h'.asked)

/-- A catalog has one main target at most. -/
theorem HasMain.unique {main main' : Option String} (h : c.HasMain wanted main)
    (h' : c.HasMain wanted main') : main = main' := by
  cases h with
  | asked hasked hne =>
    cases h' with
    | asked hasked' => rw [← hasked, hasked']
    | only hnone => exact absurd (hnone _ hasked) hne
    | absent hnone => exact absurd (hnone _ hasked) hne
  | only hnone honly =>
    cases h' with
    | asked hasked hne => exact absurd (hnone _ hasked) hne
    | only _ honly' => rw [(honly _).mp ((honly' _).mpr rfl)]
    | absent _ hnot =>
      exact absurd ⟨_, (honly _).mpr rfl, fun u hu => (honly u).mp hu⟩ hnot
  | absent hnone hnot =>
    cases h' with
    | asked hasked hne => exact absurd (hnone _ hasked) hne
    | only _ honly => exact absurd ⟨_, (honly _).mpr rfl, fun u hu => (honly u).mp hu⟩ hnot
    | absent => rfl

/-- All that a selection does: nothing is asked for, or a target that can be the
main one, or in vain. -/
theorem selectMain_cases (c : Catalog) (wanted : Option String) :
    ((∀ name, wanted = some name → name = "") ∧
      c.selectMain wanted = .ok (c.onlyExecutable?.map Target.name)) ∨
    (∃ name, wanted = some name ∧ name ≠ "" ∧ (∃ t ∈ c.targets, t.name = name ∧
      t.kind.isRunnable = false) ∧ c.selectMain wanted = .ok (some name)) ∨
    ∃ name, c.AsksInVain wanted name ∧ c.selectMain wanted = .error (.unknownMain name) := by
  unfold selectMain
  cases hfilter : wanted.filter (· ≠ "") with
  | none => exact .inl ⟨by simpa [Option.filter_eq_none_iff] using hfilter, rfl⟩
  | some name =>
    obtain ⟨hasked, hne⟩ : wanted = some name ∧ name ≠ "" := by
      simpa [Option.filter_eq_some_iff] using hfilter
    by_cases hbuilt : ∃ t, c.find? name = some t ∧ t.kind.isRunnable = false
    · obtain ⟨t, hfind, hkind⟩ := hbuilt
      obtain ⟨ht, htn⟩ := find?_eq_some_iff.mp hfind
      refine .inr (.inl ⟨name, hasked, hne, ⟨t, ht, htn, hkind⟩, ?_⟩)
      simp only [hfind, hkind, Bool.false_eq_true, ↓reduceIte]
    · have hvain : ∀ t, c.find? name = some t → t.kind.isRunnable = true := by
        simpa using hbuilt
      refine .inr (.inr ⟨name, ⟨hasked, hne, fun t ht hkind htn => ?_⟩, ?_⟩)
      · have hrun := hvain t (find?_eq_some_iff.mpr ⟨ht, htn⟩)
        rw [Target.Kind.isRunnable_eq_false_iff.mpr hkind] at hrun
        contradiction
      · cases hfind : c.find? name with
        | none => simp only [hfind]
        | some t => simp only [hfind, hvain t hfind, ↓reduceIte]

/-- **The selection fails** for a text that is asked for in vain, and tells it. An
empty text asks for nothing. -/
theorem selectMain_eq_error_iff {fault : Fault} :
    c.selectMain wanted = .error fault ↔
      ∃ name, c.AsksInVain wanted name ∧ fault = .unknownMain name := by
  rcases c.selectMain_cases wanted with ⟨hnone, h⟩ | ⟨asked, hasked, hne, ⟨t, ht, htn, hkind⟩, h⟩ |
    ⟨asked, hvain, h⟩
  · simp only [h, reduceCtorEq, false_iff]
    rintro ⟨name, hvain, -⟩
    exact hvain.nonempty (hnone name hvain.asked)
  · simp only [h, reduceCtorEq, false_iff]
    rintro ⟨name, hvain, -⟩
    obtain rfl := Option.some.inj (hasked.symm.trans hvain.asked)
    exact hvain.in_vain t ht (Target.Kind.isRunnable_eq_false_iff.mp hkind) htn
  · rw [h, Except.error.injEq]
    constructor
    · rintro rfl
      exact ⟨asked, hvain, rfl⟩
    · rintro ⟨name, hvain', rfl⟩
      rw [hvain.unique hvain']

/-- The only executable is the one that is an executable of the catalog. -/
theorem onlyExecutable?_eq_some_iff_forall :
    c.onlyExecutable? = some t ↔ ∀ u, u ∈ c.targets ∧ u.kind = .executable ↔ u = t := by
  have hmem : ∀ u, u ∈ c.targets.filter (fun u => u.kind = .executable) ↔
      u ∈ c.targets ∧ u.kind = .executable := by
    intro u
    rw [List.mem_filter, decide_eq_true_eq]
  have hnodup : (c.targets.filter fun u => u.kind = .executable).Nodup :=
    (List.Nodup.of_map _ c.distinct).filter _
  rw [onlyExecutable?_eq_some_iff, ← List.perm_singleton,
    List.perm_ext_iff_of_nodup hnodup (List.nodup_singleton t)]
  simp only [hmem, List.mem_singleton]

/-- **A main target that is selected** is the catalog's main target: the one asked
for, or the only executable, or none. -/
theorem hasMain_of_selectMain {main : Option String} (h : c.selectMain wanted = .ok main) :
    c.HasMain wanted main := by
  rcases c.selectMain_cases wanted with ⟨hnone, heq⟩ | ⟨name, hasked, hne, -, heq⟩ | ⟨name, -, heq⟩
  · obtain rfl := Except.ok.inj (heq.symm.trans h)
    cases honly : c.onlyExecutable? with
    | some t => exact .only hnone (onlyExecutable?_eq_some_iff_forall.mp honly)
    | none =>
      refine .absent hnone ?_
      rintro ⟨t, ht, hunique⟩
      have hsome : c.onlyExecutable? = some t := by
        rw [onlyExecutable?_eq_some_iff_forall]
        exact fun u => ⟨hunique u, fun hu => hu ▸ ht⟩
      rw [honly] at hsome
      contradiction
  · obtain rfl := Except.ok.inj (heq.symm.trans h)
    exact .asked hasked hne
  · rw [heq] at h
    contradiction

end Catalog

namespace Solution

variable {c : Catalog} {d : Dependencies} {options : SolutionOptions} {s : Solution}

/-- Assembling fails for the main target or not at all, whatever the dependencies
are. -/
theorem assemble_eq_error_iff {fault : Fault} :
    assemble c d options = .error fault ↔
      ∃ name, c.AsksInVain options.main name ∧ fault = .unknownMain name := by
  rw [← Catalog.selectMain_eq_error_iff]
  unfold assemble
  cases c.selectMain options.main <;> simp

/-- The main target of a solution is the one that its catalog has. -/
theorem hasMain_of_assemble (h : assemble c d options = .ok s) : c.HasMain options.main s.main := by
  obtain ⟨main, hmain, rfl⟩ := assemble_eq_ok_iff.mp h
  exact Catalog.hasMain_of_selectMain hmain

/-- **The main target stands first**, and is no test and no script: it has a rank of
its own. -/
theorem exists_members_of_main (h : assemble c d options = .ok s) {name : String}
    (hmain : s.main = some name) :
    ∃ m rest, s.members = m :: rest ∧ m.target.name = name ∧
      (m.target.kind = .library ∨ m.target.kind = .executable) := by
  have hgrouped := grouped_of_assemble h
  have hnames := hgrouped.first_names
  rw [hmain, Option.toList_some, List.map_eq_singleton_iff] at hnames
  obtain ⟨m, hfirst, hname⟩ := hnames
  refine ⟨m, s.group 1 ++ s.group 2, ?_, hname, hgrouped.first_kind m (by simp [hfirst])⟩
  rw [hgrouped.members_eq, hfirst, List.append_assoc, List.singleton_append]

end Solution

/-! ### Runs -/

/-- A run that prints its report fails as the report does, whatever the journal
tells. -/
theorem Command.result_generate (fs : FileSystem) (p : Project) (compact : Bool) :
    (generate fs p none compact).result =
      match p.generate fs with
      | .error e => .error (.run e)
      | .ok report =>
        .ok ((if compact then report.document.compact else report.document.pretty) ++ "\n") := by
  simp only [generate, Project.generate, Project.scanSeeded]
  cases p.catalogOf (p.survey fs) with
  | error e => rfl
  | ok catalog =>
    dsimp only
    cases p.reportOf catalog with
    | error fault => rfl
    | ok report => rfl

namespace Project

variable {p : Project} {fs : FileSystem} {catalog : Catalog}

/-- What comes after a scan fails where the solution cannot be assembled. -/
theorem generate_eq_error_iff_assemble (h : p.scanSeeded fs = .ok catalog) {e : RunError} :
    p.generate fs = .error e ↔ ∃ fault, Solution.assemble catalog (.ofCatalog catalog)
      p.settings.solution.options = .error fault ∧ e = ⟨none, fault⟩ := by
  unfold generate reportOf
  rw [h]
  dsimp only
  cases Solution.assemble catalog (.ofCatalog catalog) p.settings.solution.options with
  | ok s => simp [Except.mapError]
  | error fault => simp [Except.mapError, eq_comm]

/-- A run whose scan succeeds fails for the main target or not at all. Neither
unknown dependencies nor cycles keep a report from being made. -/
theorem generate_eq_error_iff (h : p.scanSeeded fs = .ok catalog) {e : RunError} :
    p.generate fs = .error e ↔ ∃ name, catalog.AsksInVain p.settings.solution.main name ∧
      e = ⟨none, .unknownMain name⟩ := by
  rw [generate_eq_error_iff_assemble h]
  constructor
  · rintro ⟨fault, hfault, rfl⟩
    obtain ⟨name, hvain, rfl⟩ := Solution.assemble_eq_error_iff.mp hfault
    exact ⟨name, hvain, rfl⟩
  · rintro ⟨name, hvain, rfl⟩
    exact ⟨_, Solution.assemble_eq_error_iff.mpr ⟨name, hvain, rfl⟩, rfl⟩

/-- A run that prints its report fails for the main target or not at all. -/
theorem exists_failure_iff (h : p.scanSeeded fs = .ok catalog) (compact : Bool) :
    (∃ failure, (Command.generate fs p none compact).result = .error failure) ↔
      ∃ name, catalog.AsksInVain p.settings.solution.main name := by
  rw [Command.result_generate]
  constructor
  · rintro ⟨failure, hfailure⟩
    cases hgenerate : p.generate fs with
    | ok r => simp [hgenerate] at hfailure
    | error e =>
      obtain ⟨name, hvain, -⟩ := (generate_eq_error_iff h).mp hgenerate
      exact ⟨name, hvain⟩
  · rintro ⟨name, hvain⟩
    rw [(generate_eq_error_iff h).mpr ⟨name, hvain, rfl⟩]
    exact ⟨_, rfl⟩

/-- **After a scan only the main target can be at fault**: a run fails when a text
is asked for that names no library and no executable, and says so, whatever depends
on what. A report has the main target that is asked for, or else the only
executable, or none; and it stands first in it. -/
theorem generate_of_scanSeeded (h : p.scanSeeded fs = .ok catalog) :
    (∀ e, p.generate fs = .error e ↔ ∃ name,
      catalog.AsksInVain p.settings.solution.main name ∧ e = ⟨none, .unknownMain name⟩) ∧
    (∀ compact, (∃ failure, (Command.generate fs p none compact).result = .error failure) ↔
      ∃ name, catalog.AsksInVain p.settings.solution.main name) ∧
    (∀ d, (∃ fault, Solution.assemble catalog d p.settings.solution.options = .error fault) ↔
      ∃ name, catalog.AsksInVain p.settings.solution.main name) ∧
    ∀ r, p.generate fs = .ok r →
      catalog.HasMain p.settings.solution.main r.solution.main ∧
      ∀ name, r.solution.main = some name → ∃ m rest, r.solution.members = m :: rest ∧
        m.target.name = name ∧ (m.target.kind = .library ∨ m.target.kind = .executable) := by
  refine ⟨fun e => generate_eq_error_iff h, exists_failure_iff h, fun d => ?_, fun r hr => ?_⟩
  · simp only [Solution.assemble_eq_error_iff]
    exact ⟨fun ⟨_, name, hvain, _⟩ => ⟨name, hvain⟩, fun ⟨name, hvain⟩ => ⟨_, name, hvain, rfl⟩⟩
  · obtain ⟨found, s, hscan, hs, rfl⟩ := generate_eq_ok_iff.mp hr
    obtain rfl := Except.ok.inj (h.symm.trans hscan)
    exact ⟨Solution.hasMain_of_assemble hs,
    fun name hname => Solution.exists_members_of_main hs hname⟩

/-! ### Main targets of one tree -/

def withMain (p : Project) (main : Option String) : Project :=
  { p with settings := { p.settings with solution := { p.settings.solution with main } } }

section Asked

variable (p : Project) (main : Option String) (excludes : List Pattern) (fs : FileSystem)

theorem candidateOf_withMain (dir : Path) (files : Listing) :
    Scanner.candidateOf ⟨p.withMain main, excludes⟩ fs dir files =
      Scanner.candidateOf ⟨p, excludes⟩ fs dir files := by
  have howner : Scanner.ownerOf ⟨p.withMain main, excludes⟩ = Scanner.ownerOf ⟨p, excludes⟩ := rfl
  unfold Scanner.candidateOf
  rw [howner]
  rfl

/-- What a main target is asked for does not count for a scan. -/
theorem inspect_withMain :
    Scanner.inspect ⟨p.withMain main, excludes⟩ fs = Scanner.inspect ⟨p, excludes⟩ fs := by
  funext dir
  unfold Scanner.inspect
  simp only [candidateOf_withMain]
  rfl

theorem directories_withMain :
    Scanner.directories ⟨p.withMain main, excludes⟩ fs = Scanner.directories ⟨p, excludes⟩ fs := by
  have hkeeps : Scanner.keeps ⟨p.withMain main, excludes⟩ = Scanner.keeps ⟨p, excludes⟩ := rfl
  unfold Scanner.directories
  rw [hkeeps]
  rfl

/-- A scan does not see which main target is asked for. -/
theorem scanSeeded_withMain : (p.withMain main).scanSeeded fs = p.scanSeeded fs := by
  have hsurvey : (p.withMain main).survey fs = p.survey fs := by
    have hpatterns : (p.withMain main).settings.scan = p.settings.scan := rfl
    unfold survey Scanner.ofProject
    rw [hpatterns]
    cases parseExcludes p.settings.scan.exclude with
    | error fault => rfl
    | ok patterns =>
      dsimp only
      rw [Scanner.survey, Scanner.survey, directories_withMain, inspect_withMain]
  rw [scanSeeded, scanSeeded, hsurvey]
  rfl

end Asked

/-- A test is asked for in vain; when nothing is asked for, the only executable is
the main target and stands first, although the library and it declare each other. -/
theorem generate_of_scanSeeded_tool :
    ∃ catalog,
      (tool.withMain (some "tool_test")).scanSeeded (toolFiles appManifest) = .ok catalog ∧
      (tool.withMain (some "tool_test")).generate (toolFiles appManifest) =
        .error ⟨none, .unknownMain "tool_test"⟩ ∧
      (tool.withMain (some "")).scanSeeded (toolFiles appManifest) = .ok catalog ∧
      ∃ r, (tool.withMain (some "")).generate (toolFiles appManifest) = .ok r ∧
        r.solution.main = some "app" ∧
        ∃ m rest, r.solution.members = m :: rest ∧ m.target.name = "app" := by
  obtain ⟨catalog, -, hscan, hrows, -, -⟩ :=
    exists_report_of_scan (p := tool) rfl (by decide +kernel) scan_tool
  have hrow : ∀ t ∈ catalog.targets, t.row ∈ toolRows := by
    intro t ht
    rw [← hrows]
    exact List.mem_map_of_mem ht
  have htest : ∀ t ∈ catalog.targets, t.name = "tool_test" → t.kind = .test := by
    have hkinds : ∀ row ∈ toolRows, row.name = "tool_test" → row.kind = .test := by decide
    exact fun t ht hname => hkinds t.row (hrow t ht) hname
  have hexecutable : ∀ t ∈ catalog.targets, t.kind = .executable → t.name = "app" := by
    have hnames : ∀ row ∈ toolRows, row.kind = .executable → row.name = "app" := by decide
    exact fun t ht hkind => hnames t.row (hrow t ht) hkind
  have htested : catalog.AsksInVain (some "tool_test") "tool_test" := by
    refine ⟨rfl, by decide, fun t ht hkind hname => ?_⟩
    rw [htest t ht hname] at hkind
    simp at hkind
  have happ : catalog.HasMain (some "") (some "app") := by
    obtain ⟨t, ht, hrow⟩ : ∃ t ∈ catalog.targets, t.row = appRow :=
      List.mem_map.mp (hrows ▸ by decide)
    obtain ⟨hname, hkind⟩ : t.name = "app" ∧ t.kind = .executable :=
      ⟨congrArg Row.name hrow, congrArg Row.kind hrow⟩
    rw [← hname]
    refine .only (fun name hasked => (Option.some.inj hasked).symm) fun u => ⟨?_, ?_⟩
    · rintro ⟨hu, hkind'⟩
      exact List.inj_on_of_nodup_map catalog.distinct hu ht
        ((hexecutable u hu hkind').trans hname.symm)
    · rintro rfl
      exact ⟨ht, hkind⟩
  have hscanned : ∀ main,
      (tool.withMain main).scanSeeded (toolFiles appManifest) = .ok catalog := fun main =>
    (scanSeeded_withMain tool main _).trans hscan
  obtain ⟨hvain, -, -, -⟩ := generate_of_scanSeeded (hscanned (some "tool_test"))
  obtain ⟨herror, -, -, hreport⟩ := generate_of_scanSeeded (hscanned (some ""))
  refine ⟨catalog, hscanned _, (hvain _).mpr ⟨_, htested, rfl⟩, hscanned _, ?_⟩
  cases hgenerate : (tool.withMain (some "")).generate (toolFiles appManifest) with
  | error e =>
    obtain ⟨name, ⟨hasked, hne, -⟩, -⟩ := (herror e).mp hgenerate
    exact absurd (Option.some.inj hasked).symm hne
  | ok r =>
    obtain ⟨hmain, hfirst⟩ := hreport r hgenerate
    have hname : r.solution.main = some "app" := hmain.unique happ
    obtain ⟨m, rest, hmembers, hfirst, -⟩ := hfirst "app" hname
    exact ⟨r, rfl, hname, m, rest, hmembers, hfirst⟩

end Project

end SolutionTree
