import SolutionTree.Command.Arguments
import SolutionTree.FileSystem.Write
import SolutionTree.Journal
import SolutionTree.Report.Document

/-!
What a run prints and leaves behind.

A run opens the project, does what was asked for and ends with an exit code: zero,
one after a fault, or two when the arguments are wrong. Results go to the standard
output; the journal, and after it any diagnostic, go to the standard error.
-/

namespace SolutionTree.Command

/-- How a run ends. -/
structure Outcome where
  exit : Nat := 0
  stdout : String := ""
  stderr : String := ""
  fileSystem : FileSystem

/-- Why a run fails. -/
inductive Failure where
  | run (e : RunError)
  | unknownTarget (name : String)
  | write (e : FileSystem.WriteError)
  deriving DecidableEq, Repr

/-- What the user is told about a failure. -/
def Failure.render (color : Bool) : Failure → String
  | .run e => e.fault.diagnostic.render color
  | .unknownTarget name =>
    "error: unknown target `" ++ name ++ "`\nhint: use `trellis scan` to list all targets\n"
  | .write e => "error: " ++ e.message ++ "\n"

/-- What a request does, before it is put together with the journal. -/
structure Effect where
  lines : List Journal.Line
  result : Except Failure String
  /-- A diagnostic that is printed although the run succeeds. -/
  warning : Option Diagnostic := none
  fileSystem : FileSystem

/-! ### Texts -/

/-- A text with blanks behind it, up to a width in characters. -/
def padRight (width : Nat) (s : String) : String :=
  s ++ String.ofList (List.replicate (width - s.length) ' ')

/-- A text with blanks before it, up to a width in characters. -/
def padLeft (width : Nat) (s : String) : String :=
  String.ofList (List.replicate (width - s.length) ' ') ++ s

def nameWidth (c : Catalog) : Nat :=
  c.names.foldl (fun width name => max width name.utf8ByteSize) 0

def tableLine (width : Nat) (t : Target) : String :=
  padRight width t.name ++ "  " ++ t.kind.word ++ " " ++ t.id.text ++ "  " ++
    Target.shownDir t.relativeDir

def table (c : Catalog) : String :=
  String.join (c.targets.map fun t => tableLine (nameWidth c) t ++ "\n")

def edgeLines (known : String → Bool) : List String → List String
  | [] => []
  | name :: rest =>
    let branch := if rest.isEmpty then "└── " else "├── "
    let marker := if known name then "" else " (unresolved)"
    (branch ++ name ++ marker) :: edgeLines known rest

def targetLines (c : Catalog) (d : Dependencies) (t : Target) : List String :=
  (t.name ++ " (" ++ t.kind.word ++ ")") :: edgeLines c.contains (d.of t.name)

/-- The dependencies of all targets, or of one. -/
def edgeText (c : Catalog) (d : Dependencies) (wanted : Option String) : String :=
  let shown := c.targets.filter fun t => wanted.all (· == t.name)
  String.join ((shown.flatMap (targetLines c d)).map (· ++ "\n"))

/-- A build order as a numbered list. -/
def orderLines : Nat → List String → List String
  | _, [] => []
  | n, name :: rest => (padLeft 3 (toString n) ++ ". " ++ name) :: orderLines (n + 1) rest

/-- What the user is told when there is no build order. -/
def cycleWarning (cycle : DependencyCycle) : Diagnostic where
  severity := .warning
  message := cycle.message
  context := ["targets on a cycle have no dependencies-first order"]
  suggestions := ["Remove one of the `DEPENDS` entries on the cycle"]

/-! ### Requests -/

def scan (fs : FileSystem) (p : Project) (json : Bool) : Effect :=
  let survey := p.survey fs
  let result :=
    match p.catalogOf survey with
    | .error e => .error (.run e)
    | .ok catalog => .ok (if json then catalog.document.pretty ++ "\n" else table catalog)
  { lines := Journal.ofScan p survey, result, fileSystem := fs }

def graph (fs : FileSystem) (p : Project) (wanted : Option String) (order : Bool) : Effect :=
  let survey := p.survey fs
  let scanned := Journal.ofScan p survey
  match p.catalogOf survey with
  | .error e => { lines := scanned, result := .error (.run e), fileSystem := fs }
  | .ok catalog =>
    let d := Dependencies.ofCatalog catalog
    let lines := scanned ++ Journal.ofResolving catalog
    match wanted.filter fun name => !catalog.contains name with
    | some name => { lines, result := .error (.unknownTarget name), fileSystem := fs }
    | none =>
      if order then
        match d.buildOrder with
        | .ok names =>
          let text := String.join ((orderLines 1 names).map (· ++ "\n"))
          { lines, result := .ok text, fileSystem := fs }
        | .error cycle =>
          { lines, result := .ok "", warning := some (cycleWarning cycle), fileSystem := fs }
      else { lines, result := .ok (edgeText catalog d wanted), fileSystem := fs }

/-- Prints a report, or writes it to a file; `lines` is the journal up to here. -/
def deliver (fs : FileSystem) (lines : List Journal.Line) (report : Report)
    (output : Option Path) (compact : Bool) : Effect :=
  let text := (if compact then report.document.compact else report.document.pretty) ++ "\n"
  match output with
  | none => { lines, result := .ok text, fileSystem := fs }
  | some path =>
    match fs.writeText path text with
    | ⟨left, none⟩ =>
      { lines := lines ++ [Journal.ofWriting path], result := .ok "", fileSystem := left }
    | ⟨left, some e⟩ => { lines, result := .error (.write e), fileSystem := left }

/-- Generates the report. -/
def generate (fs : FileSystem) (p : Project) (output : Option Path) (compact : Bool) : Effect :=
  let survey := p.survey fs
  let scanned := Journal.ofScan p survey
  match p.catalogOf survey with
  | .error e => { lines := scanned, result := .error (.run e), fileSystem := fs }
  | .ok catalog =>
    let resolved := scanned ++ Journal.ofResolving catalog
    match p.reportOf catalog with
    | .error fault => { lines := resolved, result := .error (.run ⟨none, fault⟩), fileSystem := fs }
    | .ok report =>
      let lines := resolved ++ Journal.ofAssembling catalog ++ [Journal.ofReport report]
      deliver fs lines report output compact

/-- Does what was asked for in an open project. -/
def perform (fs : FileSystem) (p : Project) : Request → Effect
  | .scan json => scan fs p json
  | .graph wanted order => graph fs p wanted order
  | .generate output compact => generate fs p output compact

/-! ### Runs -/

/-- The root of an invocation: the one asked for, or the nearest one with a settings
file, or the working directory. -/
def rootOf (fs : FileSystem) (invocation : Invocation) : Path :=
  let here := Path.ofPlace fs.cwd
  invocation.root.getD ((Project.findRoot? fs here).getD here)

/-- Puts an effect together with the journal of what went before. -/
def Effect.outcome (effect : Effect) (verbose color : Bool) (before : List Journal.Line) :
    Outcome :=
  let journal := Journal.render verbose (before ++ effect.lines)
  match effect.result with
  | .error failure =>
    { exit := 1, stderr := journal ++ failure.render color, fileSystem := effect.fileSystem }
  | .ok text =>
    let warning := (effect.warning.map fun d => d.render false).getD ""
    { stdout := text, stderr := journal ++ warning, fileSystem := effect.fileSystem }

/-- Runs an invocation; `terminal` says whether the standard error may show colors.
-/
def run (fs : FileSystem) (invocation : Invocation) (terminal : Bool) : Outcome :=
  let color := terminal && !invocation.noColor
  let root := rootOf fs invocation
  let opening := Journal.ofOpening fs root invocation.settingsFile
  let effect : Effect :=
    match Project.openAt fs root invocation.settingsFile with
    | .error fault => { lines := [], result := .error (.run ⟨none, fault⟩), fileSystem := fs }
    | .ok project => perform fs project invocation.request
  effect.outcome invocation.verbose color opening

/-! ### The command line -/

def versionText : String :=
  "trellis 0.1.0\n"

def helpText : String :=
  String.intercalate "\n" [
    "Trellis - solution generator for C and C++ source trees",
    "",
    "Usage: trellis [OPTIONS] <COMMAND>",
    "",
    "Commands:",
    "  scan      List the targets found in the source tree",
    "  graph     Display the direct dependencies of every target",
    "  generate  Assemble the solution and its project descriptors",
    "  help      Print this message or the help of the given subcommand(s)",
    "",
    "Options:",
    "  -v, --verbose          Enable verbose output",
    "      --no-color         Disable colored output",
    "      --root <ROOT>      Project root (defaults to the nearest directory " ++
      "holding trellis.toml) [env: TRELLIS_ROOT=]",
    "      --config <CONFIG>  Configuration file to use instead of <root>/trellis.toml",
    "  -h, --help             Print help",
    "  -V, --version          Print version",
    ""]

def usageText : String :=
  "error: wrong arguments\n\nUsage: trellis [OPTIONS] <COMMAND>\n\n" ++
    "For more information, try '--help'.\n"

def answer (fs : FileSystem) (args : List String) (envRoot : Option String) (terminal : Bool) :
    Outcome :=
  match parse args envRoot with
  | .error .usage => { exit := 2, stderr := usageText, fileSystem := fs }
  | .error .help => { stdout := helpText, fileSystem := fs }
  | .error .version => { stdout := versionText, fileSystem := fs }
  | .ok invocation => run fs invocation terminal

end SolutionTree.Command
