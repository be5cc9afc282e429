import SolutionTree.Dependencies.BuildOrder
import SolutionTree.ProjectFile
import SolutionTree.Scan

/-!
Reports: all that is generated for a project in one run.

A run scans the project with identifiers from the configured seed, assembles the
solution and describes the project files. `scanSeeded` is the first step, whose
faults are told with the directory that was scanned, and `catalogOf` its second
half, for a survey that was made before; `generate` is the whole.
-/

namespace SolutionTree

structure Report where
  solution : Solution
  fingerprint : String
  projectFiles : List ProjectFile

/-- A fault and what was being done when it arose. -/
structure RunError where
  doing : Option String
  fault : Fault
  deriving DecidableEq, Repr

/-- The text of a run's error: what was being done, the fault, and what lies behind
it. -/
def RunError.message (e : RunError) : String :=
  match e.doing with
  | none => e.fault.fullMessage
  | some doing => doing ++ ": " ++ e.fault.fullMessage

namespace Project

def scanError (p : Project) (fault : Fault) : RunError :=
  ⟨some ("failed to scan " ++ p.sourceDir.text), fault⟩

/-- The catalog of a survey, with identifiers that follow the configured seed. -/
def catalogOf (p : Project) (survey : Except Fault Survey) : Except RunError Catalog :=
  match Settings.seed p.settings.solution, survey with
  | .error fault, _ => .error ⟨none, fault⟩
  | .ok _, .error fault => .error (p.scanError fault)
  | .ok seed, .ok survey => (survey.enroll ⟨seed⟩).1.mapError p.scanError

/-- Scans the source tree with identifiers that follow the configured seed. -/
def scanSeeded (p : Project) (fs : FileSystem) : Except RunError Catalog :=
  p.catalogOf (p.survey fs)

def reportOf (p : Project) (c : Catalog) : Except Fault Report :=
  match Solution.assemble c (Dependencies.ofCatalog c) p.settings.solution.options with
  | .error fault => .error fault
  | .ok solution =>
    .ok { solution, fingerprint := solution.fingerprint, projectFiles := solution.projectFiles p }

def generate (p : Project) (fs : FileSystem) : Except RunError Report :=
  match p.scanSeeded fs with
  | .error e => .error e
  | .ok catalog => (p.reportOf catalog).mapError (⟨none, ·⟩)

end Project

end SolutionTree
