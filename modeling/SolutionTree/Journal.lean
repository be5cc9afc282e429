import SolutionTree.Report
import SolutionTree.Text.Control

/-!
The journal of a run: what it tells about its progress, line by line.

The lines are worked out from the same values as the results and change none of
them. Each has a level, and a reader who does not ask for details is spared the
lowest one.
-/

namespace SolutionTree

/-- How much a journal line matters. -/
inductive Journal.Level where
  | debug
  | info
  | warn
  deriving DecidableEq, Repr

structure Journal.Line where
  level : Journal.Level
  text : String
  deriving DecidableEq, Repr

namespace Journal

def Level.word : Level → String
  | .debug => "DEBUG"
  | .info => " INFO"
  | .warn => " WARN"

/-- A line as it is printed, its control characters spelled out. -/
def Line.render (line : Line) : String :=
  line.level.word ++ " " ++ Text.Control.spellOut line.text ++ "\n"

/-- Lines as they are printed, with details or without. -/
def render (details : Bool) (lines : List Line) : String :=
  String.join ((lines.filter fun line => details || line.level != .debug).map Line.render)

/-! ### The steps of a run -/

/-- Tells which project root was chosen, and whether its settings file is missing.
-/
def ofOpening (fs : FileSystem) (root : Path) (file : Option Path) : List Line :=
  let settings := root.child Settings.fileName
  let missing :=
    match file, fs.node? settings with
    | none, .error .notFound =>
      [⟨.debug, "no config at " ++ settings.text ++ ", using defaults"⟩]
    | _, _ => []
  ⟨.debug, "project root: " ++ root.text⟩ :: missing

def ofSkipped (relativeDir : String) : Line :=
  ⟨.debug, "skipping " ++ Target.shownDir relativeDir ++ " (no sources)"⟩

/-- Tells which identifier each candidate gets, up to the first that is refused. -/
def ofEnrolling : List Candidate → Catalog → Identifier.Supply → List Line
  | [], _, _ => []
  | c :: rest, catalog, supply =>
    let (id, supply) := supply.draw
    let text := c.kind.word ++ " `" ++ c.name ++ "` (" ++ Target.shownDir c.relativeDir ++ ") " ++
      id.text
    ⟨.info, text⟩ ::
      match catalog.insert (c.withId id) with
      | .error _ => []
      | .ok catalog => ofEnrolling rest catalog supply

/-- Tells of a survey and of the identifiers that its candidates get from a supply.
-/
def ofSurvey (survey : Survey) (supply : Identifier.Supply) : List Line :=
  let count := toString survey.findings.length
  let enrolled :=
    match survey.candidates with
    | .error _ => []
    | .ok candidates => ofEnrolling candidates .empty supply
  ⟨.debug, "inspecting " ++ count ++ " directories"⟩ :: survey.skipped.map ofSkipped ++ enrolled

def ofScan (p : Project) (survey : Except Fault Survey) : List Line :=
  match Settings.seed p.settings.solution, survey with
  | .ok seed, .ok survey => ofSurvey survey ⟨seed⟩
  | _, _ => []

def ofDependencies (c : Catalog) : List Line :=
  c.targets.map fun t =>
    ⟨.debug, t.name ++ " -> [" ++ String.intercalate ", " (c.dependenciesOf t) ++ "]"⟩

/-- Warns of dependencies that name no target, and of a cycle. -/
def ofProblems (d : Dependencies) : List Line :=
  let unresolved : List Line := d.unresolved.map fun x =>
    ⟨.warn, "unresolved dependency `" ++ x.2 ++ "` of `" ++ x.1 ++ "`"⟩
  let cycle : List Line :=
    match d.buildOrder with
    | .ok _ => []
    | .error cycle => [⟨.warn, cycle.message ++ "; emission order is unaffected"⟩]
  unresolved ++ cycle

def ofResolving (c : Catalog) : List Line :=
  ofDependencies c ++ ofProblems (Dependencies.ofCatalog c)

/-- Warns of dependencies that are left out of a solution. -/
def ofAssembling (c : Catalog) : List Line :=
  let d := Dependencies.ofCatalog c
  let identifiers := c.identifiers
  c.targets.flatMap fun t =>
    ((d.of t.name).filter fun name => !identifiers.contains name).map fun name =>
      ⟨.warn, "`" ++ t.name ++ "` depends on unknown target `" ++ name ++ "`, edge dropped"⟩

def ofReport (r : Report) : Line :=
  ⟨.info, "generated " ++ toString r.projectFiles.length ++ " projects for `" ++
    r.solution.name ++ "` (" ++ String.ofList (r.fingerprint.toList.take 12) ++ ")"⟩

def ofWriting (path : Path) : Line :=
  ⟨.info, "wrote " ++ path.text⟩

end Journal

end SolutionTree
