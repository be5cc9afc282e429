import SolutionTree.Catalog
import SolutionTree.Path.Directory
import SolutionTree.Pattern.Matching
import SolutionTree.Project

/-!
Scanning: from a source tree to the catalog of its targets.

`walk` lists the directories to look at, depth first and by name, and leaves out
whatever lies below an excluded one. `inspect` makes a candidate of each directory
that holds a source, with what its manifest and, for a runnable, its owner's
manifest say, and a survey holds what was found in all of them. Identifiers are
drawn only after all directories were inspected, in the order of the directories'
texts, so the order of the walk shows in nothing but the choice of the first fault.
-/

namespace SolutionTree

/-! ### The walk -/

/-- Puts what was found below the entries of a directory in the order of their
names. -/
def inNameOrder (branches : List (String × List Path)) : List Path :=
  (branches.mergeSort fun a b => decide (a.1 ≤ b.1)).flatMap Prod.snd

mutual

/-- The directories of a tree that stands at a path: the top first, then those below
each kept entry, by name. -/
def walk (keep : Path → Bool) (path : Path) : FileTree → List Path
  | .file _ => []
  | .dir entries => path :: inNameOrder (walkEntries keep path entries)

/-- What the walk finds below each entry of a directory. -/
def walkEntries (keep : Path → Bool) (path : Path) :
    List (String × FileTree) → List (String × List Path)
  | [] => []
  | (name, node) :: rest =>
    (name, if keep (path.child name) then walk keep (path.child name) node else []) ::
      walkEntries keep path rest

end

/-- What a scan needs to know of a project. -/
structure Scanner where
  project : Project
  excludes : List Pattern

/-- A directory that makes a target, before it has an identifier. -/
structure Candidate where
  relativeDir : String
  name : String
  kind : Target.Kind
  files : Listing
  manifest : Manifest
  owner : Option Owner
  deriving DecidableEq, Repr

def Candidate.withId (c : Candidate) (id : Identifier) : Target where
  name := c.name
  kind := c.kind
  id := id
  relativeDir := c.relativeDir
  files := c.files
  manifest := c.manifest
  owner := c.owner

/-- What a scan finds in a directory: what becomes a target, or that it holds no
sources. -/
inductive Finding where
  | target (candidate : Candidate)
  | skipped (relativeDir : String)
  deriving DecidableEq, Repr

/-- The candidate that was found, if any. -/
def Finding.candidate? : Finding → Option Candidate
  | .target candidate => some candidate
  | .skipped _ => none

/-- What a scan finds in each directory of a source tree, in the order of the walk.
-/
structure Survey where
  findings : List (Except Fault Finding)

/-- Compiles exclude patterns; the first bad one is the fault. -/
def parseExcludes : List String → Except Fault (List Pattern)
  | [] => .ok []
  | text :: rest =>
    match Pattern.parse text with
    | .error e => .error (.invalidPattern text e)
    | .ok pattern =>
      match parseExcludes rest with
      | .error fault => .error fault
      | .ok patterns => .ok (pattern :: patterns)

namespace Scanner

def ofProject (project : Project) : Except Fault Scanner :=
  match parseExcludes project.settings.scan.exclude with
  | .error fault => .error fault
  | .ok excludes => .ok ⟨project, excludes⟩

/-- A directory as a text below the source root. -/
def textOf (s : Scanner) (dir : Path) : String :=
  s.project.sourceDir.textBelow dir

def isExcluded (s : Scanner) (relativeDir : String) : Bool :=
  s.excludes.any fun pattern => pattern.matchesText relativeDir

/-- Whether the walk enters a directory. -/
def keeps (s : Scanner) (dir : Path) : Bool :=
  let text := s.textOf dir
  text = "" || !s.isExcluded text

/-- The fault of a walk that cannot list a directory. -/
def stopped (dir : Path) (cause : IoError) : Fault :=
  .sourceRootUnreadable dir (.onTheWay dir cause)

/-- The directories of the source tree, excluded ones left out. Each is listed by
its path, so a path that is refused stops the walk. -/
def directories (s : Scanner) (fs : FileSystem) : Except Fault (List Path) :=
  match fs.node? s.project.sourceDir with
  | .error e => .error (stopped s.project.sourceDir e)
  | .ok node =>
    let dirs := walk s.keeps s.project.sourceDir node
    match dirs.findSome? fun dir => (FileSystem.refusal? dir).map (stopped dir) with
    | some fault => .error fault
    | none => .ok dirs

def runnableNames (s : Scanner) : Target.RunnableNames where
  test := s.project.settings.scan.testName
  script := s.project.settings.scan.scriptName

def loadManifest (s : Scanner) (fs : FileSystem) (dir : Path) : Except Fault Manifest :=
  Manifest.load fs dir s.project.settings.layout.manifest s.project.includeBase

def targetName (s : Scanner) (relativeDir : String) (manifest : Manifest) : String :=
  manifest.executable.getD (Target.flattenedName relativeDir s.project.rootTargetName)

/-- The owner of a runnable: the directory above it, with sources or without. -/
def ownerOf (s : Scanner) (fs : FileSystem) (relativeDir : String) : Except Fault Owner :=
  let parent := Target.parentDir relativeDir
  match s.loadManifest fs (s.project.sourceDir.descend parent) with
  | .error fault => .error fault
  | .ok manifest =>
    .ok {
      name := s.targetName parent manifest
      relativeDir := parent
      dependencies := manifest.dependencies }

/-- The candidate of a directory that holds sources. -/
def candidateOf (s : Scanner) (fs : FileSystem) (dir : Path) (files : Listing) :
    Except Fault Candidate :=
  let text := s.textOf dir
  match s.loadManifest fs dir with
  | .error fault => .error fault
  | .ok manifest =>
    let kind := Target.classify s.runnableNames text manifest
    let candidate := fun owner => {
      relativeDir := text
      name := s.targetName text manifest
      kind, files, manifest, owner : Candidate }
    if kind.isRunnable then (s.ownerOf fs text).map fun owner => candidate (some owner)
    else .ok (candidate none)

def inspect (s : Scanner) (fs : FileSystem) (dir : Path) : Except Fault Finding :=
  match Listing.read fs s.project.settings.scan.extensions dir with
  | .error e => .error (.sourceRootUnreadable dir e)
  | .ok files =>
    if files.hasSources then (s.candidateOf fs dir files).map .target
    else .ok (.skipped (s.textOf dir))

def survey (s : Scanner) (fs : FileSystem) : Except Fault Survey :=
  (s.directories fs).map fun dirs => ⟨dirs.map (s.inspect fs)⟩

end Scanner

/-! ### Identifiers -/

/-- Gives each candidate the next identifier and adds it to a catalog. An identifier
is drawn also for a candidate that is then refused. -/
def enroll : List Candidate → Catalog → Identifier.Supply →
    Except Fault Catalog × Identifier.Supply
  | [], catalog, supply => (.ok catalog, supply)
  | candidate :: rest, catalog, supply =>
    let (id, supply) := supply.draw
    match catalog.insert (candidate.withId id) with
    | .error fault => (.error fault, supply)
    | .ok catalog => enroll rest catalog supply

/-! ### Scans -/

namespace Survey

/-- The candidates among findings, in their order; the first fault wins. -/
def gather : List (Except Fault Finding) → Except Fault (List Candidate)
  | [] => .ok []
  | .error fault :: _ => .error fault
  | .ok finding :: rest =>
    match gather rest with
    | .error fault => .error fault
    | .ok candidates => .ok (finding.candidate?.toList ++ candidates)

def candidates (v : Survey) : Except Fault (List Candidate) :=
  (gather v.findings).map fun found =>
    found.mergeSort fun a b => decide (a.relativeDir ≤ b.relativeDir)

/-- The directories that hold no sources. -/
def skipped (v : Survey) : List String :=
  v.findings.filterMap fun
    | .ok (.skipped relativeDir) => some relativeDir
    | _ => none

/-- The catalog of a survey, with identifiers drawn from a supply. -/
def enroll (v : Survey) (supply : Identifier.Supply) :
    Except Fault Catalog × Identifier.Supply :=
  match v.candidates with
  | .error fault => (.error fault, supply)
  | .ok candidates => SolutionTree.enroll candidates .empty supply

end Survey

/-- Looks at a project's source tree. -/
def Project.survey (project : Project) (fs : FileSystem) : Except Fault Survey :=
  match Scanner.ofProject project with
  | .error fault => .error fault
  | .ok scanner => scanner.survey fs

/-- Scans a project's source tree, drawing identifiers from a supply. -/
def Project.scan (project : Project) (fs : FileSystem) (supply : Identifier.Supply) :
    Except Fault Catalog × Identifier.Supply :=
  match project.survey fs with
  | .error fault => (.error fault, supply)
  | .ok survey => survey.enroll supply

end SolutionTree
