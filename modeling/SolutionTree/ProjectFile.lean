import SolutionTree.Path.Directory
import SolutionTree.Project
import SolutionTree.Solution

/-!
Project files: all that is written out for one member of a solution.

Every path in a project file is relative to the output directory. The sources of a
test have their `main` renamed, and a generated runner calls them one after another;
a script is run after it is built; a runnable links the library that owns it.
-/

namespace SolutionTree

/-- A way of building every target. -/
inductive Configuration where
  | debug
  | release
  deriving DecidableEq, Repr

namespace Configuration

def all : List Configuration := [.debug, .release]

def name : Configuration → String
  | .debug => "Debug"
  | .release => "Release"

def dirName : Configuration → String
  | .debug => "debug"
  | .release => "release"

end Configuration

/-- What a project builds. -/
inductive ProductType where
  | staticLibrary
  | application
  deriving DecidableEq, Repr

namespace ProductType

/-- What a target of a kind is built as. -/
def ofKind : Target.Kind → ProductType
  | .library => .staticLibrary
  | _ => .application

def word : ProductType → String
  | .staticLibrary => "StaticLibrary"
  | .application => "Application"

def extension : ProductType → String
  | .staticLibrary => "lib"
  | .application => "exe"

end ProductType

/-- How a project is built in one configuration. -/
structure BuildSettings where
  configuration : Configuration
  intermediateDir : String
  outputDir : String
  /-- The command that is run after the build. -/
  postBuild : Option String
  deriving DecidableEq, Repr

/-- A source and the macros that it is compiled with. -/
structure CompileItem where
  path : String
  defines : List String := []
  deriving DecidableEq, Repr

/-- The generated file with the `main` of a test. -/
structure TestRunner where
  fileName : String
  contents : String
  deriving DecidableEq, Repr

/-- All that is written out for one target. -/
structure ProjectFile where
  name : String
  fileName : String
  id : Identifier
  kind : Target.Kind
  toolset : Option String
  builds : List BuildSettings
  compileItems : List CompileItem
  includeItems : List String
  includeDirs : List String
  compilerArgs : Option String
  runArgs : Option String
  linkLibraries : List String
  references : List Reference
  testRunner : Option TestRunner
  deriving DecidableEq, Repr

/-! ### Configurations -/

/-- A directory text with a slash at its end, unless it is empty. -/
def withTrailingSlash (s : String) : String :=
  if s = "" || s.toList.getLast? = some '/' then s else s ++ "/"

/-- Where the intermediate files of a target go in a configuration. -/
def Project.intermediateOfTarget (p : Project) (c : Configuration) (relativeDir : String) : Path :=
  (p.intermediateOf c.dirName).descend relativeDir

namespace BuildSettings

/-- How a target is built in one configuration. -/
def ofTarget (p : Project) (t : Target) (c : Configuration) : BuildSettings :=
  let outputDir := withTrailingSlash (Path.relative (p.binaryOf c.dirName) p.outputDir)
  let intermediate := p.intermediateOfTarget c t.relativeDir
  let binary := outputDir ++ t.name ++ ".exe"
  let command :=
    match t.manifest.runArgs with
    | none => binary
    | some args => binary ++ " " ++ args
  { configuration := c
    intermediateDir := withTrailingSlash (Path.relative intermediate p.outputDir)
    outputDir
    postBuild := if t.kind = .script then some command else none }

end BuildSettings

/-! ### Tests -/

/-- The name that the `main` of a test source gets. -/
def entryPoint (source : Path) : String :=
  "main_" ++ source.stem?.getD ""

namespace TestRunner

def declaration (name : String) : String :=
  "int " ++ name ++ "(int argc, char *argv[]);\n"

def call (name : String) : String :=
  "    " ++ name ++ "(argc, argv);\n"

/-- The runner of a test: it declares the renamed `main`s and calls them in order.
-/
def ofTarget (t : Target) : TestRunner :=
  let names := t.files.sourcePaths.map entryPoint
  { fileName := t.name ++ "_main.cpp"
    contents :=
      String.join (names.map declaration) ++ "\nint main(int argc, char *argv[])\n\x7b\n" ++
        String.join (names.map call) ++ "\x7d\n" }

end TestRunner

namespace ProjectFile

/-- A source as it is compiled; that of a test has its `main` renamed. -/
def compileItem (p : Project) (kind : Target.Kind) (source : Path) : CompileItem where
  path := Path.relative source p.outputDir
  defines := if kind = .test then ["main=" ++ entryPoint source] else []

/-- The library that a runnable links: the one that owns it. -/
def linkedLibraries (t : Target) (s : Solution) : List String :=
  match t.runnableOwner?.bind fun owner => s.find? owner.name with
  | none => []
  | some owner =>
    if owner.target.kind = .library then [owner.target.name ++ ".lib"] else []

def ofMember (p : Project) (s : Solution) (m : Member) : ProjectFile :=
  let t := m.target
  let runner := if t.kind = .test then some (TestRunner.ofTarget t) else none
  let sources := t.files.sourcePaths.map (compileItem p t.kind)
  { name := t.name
    fileName := m.fileName
    id := t.id
    kind := t.kind
    toolset := p.settings.solution.platformToolset?
    builds := Configuration.all.map (BuildSettings.ofTarget p t)
    compileItems := sources ++ runner.toList.map fun r => { path := r.fileName }
    includeItems :=
      if t.kind = .test then []
      else t.files.headerPaths.map fun header => Path.relative header p.outputDir
    includeDirs := Path.relative p.sourceDir p.outputDir :: t.manifest.includeDirs
    compilerArgs := t.manifest.compilerArgs
    runArgs := t.manifest.runArgs
    linkLibraries := linkedLibraries t s
    references := m.references
    testRunner := runner }

end ProjectFile

def Solution.projectFiles (s : Solution) (p : Project) : List ProjectFile :=
  s.members.map (ProjectFile.ofMember p s)

end SolutionTree
