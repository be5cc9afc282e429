import SolutionTree.FileTree.Position
import SolutionTree.Path.Lexical

/-!
A file system: a file tree seen from a working directory.

`position` follows a path step by step. Every step, also an empty one, needs a
directory to stand in, and a name must be there to be entered; so `missing/..` is
not found although its text leads back, and `file/` is refused. A path with a NUL
character in it leads nowhere. A text of 4096 bytes or more, and a name of more than
255 bytes, are refused as too long and not as missing. The reading operations build
on it, and `normalize` gives a path that can be followed its one spelling from the
root.
-/

namespace SolutionTree

/-- Why a file operation failed. -/
inductive IoError where
  | notFound
  | alreadyExists
  | notDirectory
  | isDirectory
  | notEmpty
  | invalidArgument
  | notUnicode
  | nameTooLong
  | nulCharacter
  /-- A failure at a path that was come upon on a walk. -/
  | onTheWay (path : Path) (cause : IoError)
  | other (text : String)
  deriving DecidableEq, Repr

def IoError.message : IoError → String
  | .notFound => "No such file or directory (os error 2)"
  | .alreadyExists => "File exists (os error 17)"
  | .notDirectory => "Not a directory (os error 20)"
  | .isDirectory => "Is a directory (os error 21)"
  | .notEmpty => "Directory not empty (os error 39)"
  | .invalidArgument => "Invalid argument (os error 22)"
  | .notUnicode => "stream did not contain valid UTF-8"
  | .nameTooLong => "File name too long (os error 36)"
  | .nulCharacter => "file name contained an unexpected NUL byte"
  | .onTheWay path cause => "IO error for operation on " ++ path.text ++ ": " ++ cause.message
  | .other text => text

/-- The text of a failed file operation, followed by the texts of what lies behind
it. -/
def IoError.fullMessage : IoError → String
  | .onTheWay path cause =>
    IoError.message (.onTheWay path cause) ++ ": " ++ cause.fullMessage
  | e => e.message

/-- A tree of files and the place that relative paths start from. -/
structure FileSystem where
  tree : FileTree
  cwd : List String := []
  deriving Inhabited

namespace FileSystem

/-! ### Following paths -/

/-- Whether an entry may have the name: it has at most 255 bytes. -/
def nameFits (name : String) : Bool :=
  name.utf8ByteSize ≤ 255

/-- Whether a text of so many bytes may be followed: it has fewer than 4096. -/
def lengthFits (bytes : Nat) : Bool :=
  bytes < 4096

def follow : FileTree.Position → List String → Except IoError FileTree.Position
  | here, [] => .ok here
  | here, segment :: rest =>
    match here.node with
    | .file _ => .error .notDirectory
    | .dir _ =>
      if Path.isIdle segment then follow here rest
      else if segment = ".." then follow here.up rest
      else
        match here.enter? segment with
        | some next => follow next rest
        | none => .error (if nameFits segment then .notFound else .nameTooLong)

def startPlace (fs : FileSystem) (p : Path) : List String :=
  if p.isAbsolute then [] else fs.cwd

def followFrom (fs : FileSystem) (p : Path) (segments : List String) :
    Except IoError FileTree.Position :=
  match (FileTree.Position.top fs.tree).descend? (fs.startPlace p) with
  | none => .error .notFound
  | some here => follow here segments

/-- Why a text spells no path. -/
def misspelling? (p : Path) : Option IoError :=
  if p.text = "" then some .notFound
  else if '\x00' ∈ p.text.toList then some .nulCharacter
  else none

/-- Why a path is refused before it is followed. -/
def refusal? (p : Path) : Option IoError :=
  match misspelling? p with
  | some e => some e
  | none => if lengthFits p.text.utf8ByteSize then none else some .nameTooLong

def position (fs : FileSystem) (p : Path) : Except IoError FileTree.Position :=
  match refusal? p with
  | some e => .error e
  | none => fs.followFrom p p.segments

def locate (fs : FileSystem) (p : Path) : Except IoError (List String) :=
  (fs.position p).map (·.place)

def node? (fs : FileSystem) (p : Path) : Except IoError FileTree :=
  (fs.position p).map (·.node)

/-! ### Reading -/

def isDir (fs : FileSystem) (p : Path) : Bool :=
  match fs.node? p with
  | .ok node => node.isDir
  | .error _ => false

def isFile (fs : FileSystem) (p : Path) : Bool :=
  match fs.node? p with
  | .ok node => node.isFile
  | .error _ => false

def pathExists (fs : FileSystem) (p : Path) : Bool :=
  match fs.node? p with
  | .ok _ => true
  | .error _ => false

/-- Whether segments ask what stands before them to be a directory, though they
enter none of its entries next. -/
def asksDirectory (segments : List String) : Bool :=
  match segments, segments.dropWhile Path.isIdle with
  | [], _ => false
  | _, [] => true
  | _, segment :: _ => segment == ".."

/-- Whether a place can be looked up by its spelling from the root, with a slash
after it where the segments that are left ask for a directory. -/
def spellingFits (place rest : List String) : Bool :=
  lengthFits ((Path.ofPlace place).text.utf8ByteSize + (if asksDirectory rest then 1 else 0))

/-- Whether every name that is entered along segments can be looked up by its
spelling. -/
def spellingsFit : List String → List String → Bool
  | _, [] => true
  | place, segment :: rest =>
    let next := Path.stepPlace place segment
    (Path.isIdle segment || segment == ".." || spellingFits next rest) && spellingsFit next rest

/-- The one spelling of a path that leads somewhere; any other path as it is. The
path itself may be of any length. -/
def normalize (fs : FileSystem) (p : Path) : Path :=
  match misspelling? p, fs.followFrom p p.segments with
  | none, .ok there =>
    if spellingsFit (fs.startPlace p) p.segments then Path.ofPlace there.place else p
  | _, _ => p

def readBytes (fs : FileSystem) (p : Path) : Except IoError ByteArray :=
  match fs.node? p with
  | .error e => .error e
  | .ok (.dir _) => .error .isDirectory
  | .ok (.file content) => .ok content

/-- The text of the file at a path, which has to be UTF-8. -/
def readText (fs : FileSystem) (p : Path) : Except IoError String :=
  match fs.readBytes p with
  | .error e => .error e
  | .ok content =>
    match String.fromUTF8? content with
    | none => .error .notUnicode
    | some text => .ok text

/-- The entries of the directory at a path, in listing order. -/
def readDir (fs : FileSystem) (p : Path) : Except IoError (List (String × FileTree)) :=
  match fs.node? p with
  | .error e => .error e
  | .ok (.file _) => .error .notDirectory
  | .ok (.dir entries) => .ok entries

end FileSystem

end SolutionTree
