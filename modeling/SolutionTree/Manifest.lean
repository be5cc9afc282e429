import SolutionTree.Fault
import SolutionTree.Path.Relative
import SolutionTree.Text.Lines

/-!
Manifests: the make-style files that configure the target of their directory.

A line counts when its first token is one of five keys; all other lines are passed
over, and so is every line of a key after its first. What follows the key is an
operator, `:=` or `=`, and a value. An include directory that starts with `$(ROOT)`
stands below the project root and is written relative to the output directory.
-/

namespace SolutionTree

/-- What a manifest says about the target of its directory. -/
structure Manifest where
  /-- The name of an executable; it makes the target one. -/
  executable : Option String := none
  /-- The declared dependencies in order, repeated names kept. -/
  dependencies : List String := []
  /-- Further include directories, as they are written into project files. -/
  includeDirs : List String := []
  compilerArgs : Option String := none
  runArgs : Option String := none
  deriving DecidableEq, Repr, Inhabited

/-- What `$(ROOT)` stands for, and the directory that include directories are
relative to. -/
structure IncludeBase where
  root : Path
  outputDir : Path
  deriving DecidableEq, Repr

namespace Manifest

def isExecutable (m : Manifest) : Bool :=
  m.executable.isSome

/-! ### Keys -/

inductive Key where
  | exe
  | depends
  | includeDirs
  | cflags
  | runArgs
  deriving DecidableEq, Repr

def Key.all : List Key := [.exe, .depends, .includeDirs, .cflags, .runArgs]

def Key.token : Key → String
  | .exe => "EXE"
  | .depends => "DEPENDS"
  | .includeDirs => "INCLUDE_DIRS"
  | .cflags => "CFLAGS"
  | .runArgs => "RUN_ARGS"

def Key.ofToken? (token : String) : Option Key :=
  Key.all.find? fun key => key.token == token

@[simp] theorem Key.ofToken?_token (key : Key) : Key.ofToken? key.token = some key := by
  cases key <;> decide

/-- Where the token at the start of a line ends. -/
def endsToken (c : Char) : Bool :=
  Text.isBlank c || c == ':' || c == '='

/-- The key at the start of a line, and what follows it. -/
def key? (line : List Char) : Option (Key × List Char) :=
  (Key.ofToken? (String.ofList (line.takeWhile (!endsToken ·)))).map
    (·, line.dropWhile (!endsToken ·))

/-! ### Values -/

inductive Problem where
  | missingOperator (key : Key)
  | missingName
  | severalNames (value : String)
  deriving DecidableEq, Repr

def Problem.message : Problem → String
  | .missingOperator key => "expected `:=` after " ++ Fault.quoted key.token
  | .missingName => "`EXE` needs a name"
  | .severalNames value => "`EXE` takes a single name, got " ++ Fault.quoted value

/-- A problem and the line that it is on, counted from one. -/
structure ParseError where
  line : Nat
  problem : Problem
  deriving DecidableEq, Repr

/-- The value after a key: what stands after the operator, without blanks around it.
-/
def value? (rest : List Char) : Option (List Char) :=
  match Text.trimStart rest with
  | ':' :: '=' :: value => some (Text.trim value)
  | '=' :: value => some (Text.trim value)
  | _ => none

def tokens (value : List Char) : List String :=
  (Text.words value).map String.ofList

/-- A value as a text, unless it is empty. -/
def nonempty? (value : List Char) : Option String :=
  if value.isEmpty then none else some (String.ofList value)

/-- What an include directory below the project root starts with. -/
def rootToken : List Char := "$(ROOT)".toList

/-- The include directory that a token stands for: below the project root after
`$(ROOT)`, and otherwise as it is. -/
def includeDir (base : IncludeBase) (token : String) : String :=
  let cs := token.toList
  if rootToken.isPrefixOf cs then
    let rest := (cs.drop rootToken.length).dropWhile fun c => c == '/' || c == '\\'
    let target := if rest.isEmpty then base.root else base.root.join ⟨String.ofList rest⟩
    Path.relative target base.outputDir
  else token

/-- Lets the value of a key act on a manifest. -/
def assign (base : IncludeBase) (m : Manifest) (key : Key) (value : List Char) :
    Except Problem Manifest :=
  match key with
  | .exe =>
    match tokens value with
    | [] => .error .missingName
    | [name] => .ok { m with executable := some name }
    | _ => .error (.severalNames (String.ofList value))
  | .depends => .ok { m with dependencies := tokens value }
  | .includeDirs => .ok { m with includeDirs := (tokens value).map (includeDir base) }
  | .cflags => .ok { m with compilerArgs := nonempty? value }
  | .runArgs => .ok { m with runArgs := nonempty? value }

/-! ### Lines -/

/-- What has been read of a manifest: the keys that were met, and what they said. -/
structure Draft where
  seen : List Key := []
  manifest : Manifest := {}
  deriving DecidableEq, Repr

/-- Lets one line act. -/
def Draft.addLine (base : IncludeBase) (draft : Draft) (line : List Char) :
    Except Problem Draft :=
  match key? (Text.trim line) with
  | none => .ok draft
  | some (key, rest) =>
    if key ∈ draft.seen then .ok draft
    else
      match value? rest with
      | none => .error (.missingOperator key)
      | some value =>
        match assign base draft.manifest key value with
        | .error problem => .error problem
        | .ok manifest => .ok ⟨key :: draft.seen, manifest⟩

/-- Lets lines act one after another, the first of which has the given number. -/
def Draft.addLines (base : IncludeBase) (draft : Draft) :
    Nat → List (List Char) → Except ParseError Draft
  | _, [] => .ok draft
  | number, line :: lines =>
    match draft.addLine base line with
    | .error problem => .error ⟨number, problem⟩
    | .ok draft => draft.addLines base (number + 1) lines

def parse (base : IncludeBase) (text : String) : Except ParseError Manifest :=
  match Draft.addLines base {} 1 (Text.lines (Text.withoutMark text.toList)) with
  | .error e => .error e
  | .ok draft => .ok draft.manifest

/-! ### Files -/

def ParseError.fault (path : Path) (e : ParseError) : Fault :=
  .manifestMalformed path e.line e.problem.message

/-- Reads the text of the manifest at a path. -/
def parseAt (base : IncludeBase) (path : Path) (text : String) : Except Fault Manifest :=
  (parse base text).mapError (·.fault path)

/-- Reads the manifest of a directory; none when there is no such file. -/
def read? (fs : FileSystem) (dir : Path) (name : String) (base : IncludeBase) :
    Except Fault (Option Manifest) :=
  let path := dir.child name
  match fs.readText path with
  | .error .notFound => .ok none
  | .error e => .error (.manifestUnreadable path e)
  | .ok text => (parseAt base path text).map some

def load (fs : FileSystem) (dir : Path) (name : String) (base : IncludeBase) :
    Except Fault Manifest :=
  (read? fs dir name base).map (·.getD {})

end Manifest

end SolutionTree
