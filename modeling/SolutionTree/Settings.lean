import SolutionTree.Extensions
import SolutionTree.Fault
import SolutionTree.Toml.Document

/-!
Settings of a project, and how a settings file is read.

The file is TOML with three sections, `layout`, `scan` and `solution`; every section
and every key may be missing. A top-level key of any other name is refused, while
other keys within a section are passed over. A section may be written as a table or
as an array of its fields in order. The seed has to be an identifier, which is
looked at after all else is right.
-/

namespace SolutionTree

/-- Where things are, below the project root. -/
structure LayoutSettings where
  sourceDir : Path := ⟨"src"⟩
  outputDir : Path := ⟨"bin"⟩
  intermediateDir : Path := ⟨"out"⟩
  manifest : String := "build.mk"
  deriving DecidableEq, Repr

/-- How the source tree is read. -/
structure ScanSettings where
  extensions : Extensions := {}
  testName : String := "test"
  scriptName : String := "script"
  exclude : List String := []
  deriving DecidableEq, Repr

/-- The seed of a project that sets none. -/
def defaultSeed : String := "7c9e667a-7425-30de-944b-f07fc1f90ae8"

/-- What the solution is called and made of. -/
structure SolutionSettings where
  name : String := "solution"
  main : Option String := none
  seed : String := defaultSeed
  projectExtension : String := "vcxproj"
  toolset : Option String := none
  deriving DecidableEq, Repr

structure Settings where
  layout : LayoutSettings := {}
  scan : ScanSettings := {}
  solution : SolutionSettings := {}
  deriving DecidableEq, Repr

/-- The platform toolset of an environment tag: `v` and the digits after its leading
`VS`. -/
def platformToolset? (tag : String) : Option String :=
  match tag.toList with
  | 'V' :: 'S' :: rest => some (String.ofList ('v' :: rest.filter Char.isDigit))
  | _ => none

/-- The platform toolset of a project, when it has an environment tag that gives
one. -/
def SolutionSettings.platformToolset? (s : SolutionSettings) : Option String :=
  s.toolset.bind SolutionTree.platformToolset?

namespace Settings

def fileName : String := "trellis.toml"

/-! ### Values of a section -/

/-- The fields of a section: by key, or in order. -/
inductive Section where
  | named (entries : List (String × Toml.Value))
  | positional (elements : List Toml.Value)

/-- What may stand for a section. A date-time counts as a table whose keys are all
unknown. -/
def Section.ofValue? : Toml.Value → Option Section
  | .table entries => some (.named entries)
  | .array elements => some (.positional elements)
  | .dateTime _ => some (.named [])
  | _ => none

def Section.field? (fields : Section) (index : Nat) (key : String) : Option Toml.Value :=
  match fields with
  | .named entries => entries.lookup key
  | .positional elements => elements[index]?

def string? : Toml.Value → Option String
  | .string s => some s
  | _ => none

def strings? : Toml.Value → Option (List String)
  | .array elements => elements.mapM string?
  | _ => none

/-- A field, or its default when it is missing; none when it is of the wrong type.
-/
def Section.read {α : Type} (fields : Section) (index : Nat) (key : String)
    (decode : Toml.Value → Option α) (default : α) : Option α :=
  match fields.field? index key with
  | none => some default
  | some v => decode v

/-! ### Sections -/

def readLayout (fields : Section) : Option LayoutSettings := do
  let standard : LayoutSettings := {}
  let path := fun v => (string? v).map Path.mk
  let sourceDir ← fields.read 0 "source-dir" path standard.sourceDir
  let outputDir ← fields.read 1 "output-dir" path standard.outputDir
  let intermediateDir ← fields.read 2 "intermediate-dir" path standard.intermediateDir
  let manifest ← fields.read 3 "manifest" string? standard.manifest
  return { sourceDir, outputDir, intermediateDir, manifest }

def readScan (fields : Section) : Option ScanSettings := do
  let standard : ScanSettings := {}
  let sources ← fields.read 0 "source-extensions" strings? standard.extensions.sources
  let headers ← fields.read 1 "header-extensions" strings? standard.extensions.headers
  let testName ← fields.read 2 "test-suffix" string? standard.testName
  let scriptName ← fields.read 3 "script-suffix" string? standard.scriptName
  let exclude ← fields.read 4 "exclude" strings? standard.exclude
  return { extensions := { sources, headers }, testName, scriptName, exclude }

def readSolution (fields : Section) : Option SolutionSettings := do
  let standard : SolutionSettings := {}
  let optional := fun v => (string? v).map some
  let name ← fields.read 0 "name" string? standard.name
  let main ← fields.read 1 "main" optional standard.main
  let seed ← fields.read 2 "seed" string? standard.seed
  let projectExtension ← fields.read 3 "project-extension" string? standard.projectExtension
  let toolset ← fields.read 4 "toolset" optional standard.toolset
  return { name, main, seed, projectExtension, toolset }

/-! ### Files -/

/-- What is wrong with a settings file. -/
inductive Problem where
  | notToml
  | unknownKey (key : String)
  | wrongType (key : String)
  deriving DecidableEq, Repr

def Problem.message : Problem → String
  | .notToml => "not a TOML document"
  | .unknownKey key =>
    "unknown field `" ++ key ++ "`, expected one of `layout`, `scan`, `solution`"
  | .wrongType key => "invalid type of a value in `" ++ key ++ "`"

/-- Lets one top-level key act on the settings. -/
def addSection (settings : Settings) (entry : String × Toml.Value) : Except Problem Settings :=
  let read {α : Type} (reader : Section → Option α) (use : α → Settings) :
      Except Problem Settings :=
    match (Section.ofValue? entry.2).bind reader with
    | none => .error (.wrongType entry.1)
    | some fields => .ok (use fields)
  match entry.1 with
  | "layout" => read readLayout fun layout => { settings with layout }
  | "scan" => read readScan fun scan => { settings with scan }
  | "solution" => read readSolution fun solution => { settings with solution }
  | key => .error (.unknownKey key)

/-- Reads the text of a settings file, the seed apart. -/
def ofText (text : String) : Except Problem Settings :=
  match Toml.parse text with
  | none => .error .notToml
  | some entries => entries.foldlM addSection {}

def seed (s : SolutionSettings) : Except Fault Identifier :=
  (Identifier.parse s.seed).mapError (.invalidSeed s.seed ·)

/-- Reads the text of a settings file; the path is for the fault only. -/
def parse (text : String) (path : Path) : Except Fault Settings :=
  match ofText text with
  | .error problem => .error (.invalidSettings path problem.message)
  | .ok settings =>
    match seed settings.solution with
    | .error fault => .error fault
    | .ok _ => .ok settings

/-- Reads a settings file that has to be there. -/
def load (fs : FileSystem) (path : Path) : Except Fault Settings :=
  match fs.readText path with
  | .error e => .error (.invalidSettings path e.message)
  | .ok text => parse text path

/-- Reads a settings file, or takes the defaults when there is none. -/
def loadOrDefault (fs : FileSystem) (path : Path) : Except Fault Settings :=
  match fs.node? path with
  | .error .notFound => .ok {}
  | .error e => .error (.invalidSettings path e.message)
  | .ok _ => load fs path

end Settings

end SolutionTree
