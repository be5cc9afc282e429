import SolutionTree.Diagnostic
import SolutionTree.FileSystem
import SolutionTree.Identifier.Text
import SolutionTree.Pattern

/-!
Faults: what stops a run.

Every fault is a cause with the values that tell it. `message` is its own text,
`fullMessage` adds the text of what lies behind it, and `diagnostic` adds where it
is and what may help.
-/

namespace SolutionTree

/-- Why nothing can be generated. -/
inductive Fault where
  | sourceRootMissing (path : Path)
  | sourceRootUnreadable (path : Path) (cause : IoError)
  | manifestUnreadable (path : Path) (cause : IoError)
  | manifestMalformed (path : Path) (line : Nat) (problem : String)
  | duplicateTarget (name : String) (first second : Path)
  | unknownMain (name : String)
  | invalidSeed (text : String) (cause : Identifier.ParseError)
  | invalidSettings (path : Path) (problem : String)
  | invalidPattern (text : String) (cause : Pattern.ParseError)
  deriving DecidableEq, Repr

namespace Fault

def quoted (s : String) : String :=
  "`" ++ s ++ "`"

def message : Fault → String
  | .sourceRootMissing path =>
    "source root " ++ quoted path.text ++ " does not exist or is not a directory"
  | .sourceRootUnreadable path _ => "failed to traverse " ++ quoted path.text
  | .manifestUnreadable path _ => "failed to read manifest " ++ quoted path.text
  | .manifestMalformed path line problem =>
    "malformed manifest " ++ quoted path.text ++ " at line " ++ toString line ++ ": " ++ problem
  | .duplicateTarget name _ _ => "duplicate target name " ++ quoted name
  | .unknownMain name =>
    "main target " ++ quoted name ++ " is not a known executable or library target"
  | .invalidSeed text _ => "invalid identifier seed " ++ quoted text
  | .invalidSettings path problem =>
    "invalid configuration " ++ quoted path.text ++ ": " ++ problem
  | .invalidPattern text _ => "invalid exclude pattern " ++ quoted text

/-- The text of what lies behind a fault. -/
def cause? : Fault → Option String
  | .sourceRootUnreadable _ cause => some cause.message
  | .manifestUnreadable _ cause => some cause.message
  | .invalidSeed _ cause => some cause.message
  | .invalidPattern _ cause => some cause.message
  | _ => none

/-- The text of a fault and of all that lies behind it. -/
def fullMessage (f : Fault) : String :=
  match f with
  | .sourceRootUnreadable _ cause => f.message ++ ": " ++ cause.fullMessage
  | .manifestUnreadable _ cause => f.message ++ ": " ++ cause.fullMessage
  | _ =>
    match f.cause? with
    | none => f.message
    | some cause => f.message ++ ": " ++ cause

def location? : Fault → Option Path
  | .sourceRootMissing path => some path
  | .sourceRootUnreadable path _ => some path
  | .manifestUnreadable path _ => some path
  | .manifestMalformed path _ _ => some path
  | .invalidSettings path _ => some path
  | _ => none

/-- What is told beside a fault's message. -/
def context : Fault → List String
  | .duplicateTarget name first second =>
    [first, second].map fun dir => quoted name ++ " is produced by " ++ dir.text
  | f => f.cause?.toList

def suggestions : Fault → List String
  | .sourceRootMissing _ =>
    ["Set `layout.source-dir` in trellis.toml or pass `--root` pointing at the project"]
  | .manifestUnreadable _ _ => ["Check the file permissions and that it is valid UTF-8"]
  | .manifestMalformed _ _ _ =>
    ["Manifest lines take the form `KEY := value` " ++
      "(EXE, DEPENDS, INCLUDE_DIRS, CFLAGS, RUN_ARGS)"]
  | .duplicateTarget _ _ _ =>
    ["Rename one directory or give one of them a distinct `EXE :=` name"]
  | .unknownMain _ => ["Run `trellis scan` to see available targets"]
  | _ => []

def diagnostic (f : Fault) : Diagnostic where
  severity := .error
  message := f.message
  location := f.location?
  context := f.context
  suggestions := f.suggestions

end Fault

end SolutionTree
