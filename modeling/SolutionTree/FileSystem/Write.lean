import SolutionTree.FileSystem

/-!
Changes to a file system.

A file is written over an old one or made in a directory that is there;
`createDirAll` makes a directory with all its parents, and `remove` takes one away
with all in it; what was done before a failure stays. The last segment of a path is
special: a path that ends in a slash, in `.` or in `..` can only name a directory,
and by the last two none can be made or taken away.
-/

namespace SolutionTree

/-- The end of a path that is to be made: a new name, a name with a slash after it,
or a step that only a directory can answer. -/
inductive LastSegment where
  | name (text : String)
  | slashed (text : String)
  | step
  deriving DecidableEq, Repr

/-- What a change leaves behind and, when it came to a stop, why. -/
structure Change (ε : Type) where
  left : FileSystem
  failure : Option ε

namespace Change

variable {ε δ : Type}

/-- A change of one step, which leaves things as they were when it fails. -/
def ofExcept (fs : FileSystem) : Except ε FileSystem → Change ε
  | .ok left => ⟨left, none⟩
  | .error e => ⟨fs, some e⟩

/-- A change with another account of its failure. -/
def mapFailure (f : ε → δ) (c : Change ε) : Change δ :=
  ⟨c.left, c.failure.map f⟩

/-- Goes on after a change, unless it failed. -/
def andThen (c : Change ε) (next : FileSystem → Change ε) : Change ε :=
  match c.failure with
  | some _ => c
  | none => next c.left

end Change

namespace FileSystem

/-- The segments before the last one, and the last one. -/
def splitLast (p : Path) : List String × LastSegment :=
  let reversed := p.segments.reverse
  let slashes := reversed.takeWhile (· == "")
  match reversed.dropWhile (· == "") with
  | [] => ([], .step)
  | last :: before =>
    if last == "." || last == ".." then (before.reverse ++ [last], .step)
    else if slashes.isEmpty then (before.reverse, .name last)
    else (before.reverse, .slashed last)

/-- The position of the directory that the last segment of a path stands in. -/
def locateParent (fs : FileSystem) (p : Path) :
    Except IoError (FileTree.Position × LastSegment) :=
  match refusal? p with
  | some e => .error e
  | none =>
    let (before, last) := splitLast p
    -- The empty segment at the end asks for a directory.
    match fs.followFrom p (before ++ [""]) with
    | .error e => .error e
    | .ok parent => .ok (parent, last)

/-- Puts a node under a name into the directory at a position. -/
def putEntry (fs : FileSystem) (parent : FileTree.Position) (name : String) (node : FileTree) :
    FileSystem :=
  { fs with tree := fs.tree.set (parent.place ++ [name]) node }

/-- Puts a node into a directory under a name that has no entry there. -/
def addEntry (fs : FileSystem) (parent : FileTree.Position) (name : String) (node : FileTree) :
    Except IoError FileSystem :=
  if nameFits name then .ok (fs.putEntry parent name node) else .error .nameTooLong

/-- Writes a file, over an old one or in a directory that is there. -/
def writeBytes (fs : FileSystem) (p : Path) (content : ByteArray) :
    Except IoError FileSystem :=
  match fs.locateParent p with
  | .error e => .error e
  | .ok (_, .step) => .error .isDirectory
  | .ok (_, .slashed _) => .error .isDirectory
  | .ok (parent, .name name) =>
    match parent.node.entries.lookup name with
    | some (.dir _) => .error .isDirectory
    | some (.file _) => .ok (fs.putEntry parent name (.file content))
    | none => fs.addEntry parent name (.file content)

def createDir (fs : FileSystem) (p : Path) : Except IoError FileSystem :=
  match fs.locateParent p with
  | .error e => .error e
  | .ok (_, .step) => .error .alreadyExists
  | .ok (parent, .slashed name) | .ok (parent, .name name) =>
    match parent.node.entries.lookup name with
    | some _ => .error .alreadyExists
    | none => fs.addEntry parent name (.dir [])

/-- Makes a directory, or says that it is there already. -/
def ensureDir (fs : FileSystem) (p : Path) : Except IoError FileSystem :=
  match fs.createDir p with
  | .ok fs' => .ok fs'
  | .error e => if fs.isDir p then .ok fs else .error e

/-- Makes a directory below the parents that are given: as far up as they are not
found, and then back down. -/
def createBelow (fs : FileSystem) (p : Path) (parents : List Path.Trunk) : Change IoError :=
  if p.text = "" then ⟨fs, none⟩
  else
    match fs.ensureDir p with
    | .ok fs' => ⟨fs', none⟩
    | .error .notFound =>
      match parents with
      | [] => ⟨fs, some (.other "failed to create whole tree")⟩
      | parent :: parents =>
        (fs.createBelow parent.path parents).andThen fun fs' => .ofExcept fs' (fs'.ensureDir p)
    | .error e => ⟨fs, some e⟩

def createDirAll (fs : FileSystem) (p : Path) : Change IoError :=
  fs.createBelow p p.trunks

/-- Takes away a directory that holds nothing. -/
def removeEmptyDir (fs : FileSystem) (p : Path) : Except IoError FileSystem :=
  match fs.locateParent p with
  | .error e => .error e
  | .ok (_, .step) => .error .invalidArgument
  | .ok (parent, .slashed name) | .ok (parent, .name name) =>
    match parent.node.entries.lookup name with
    | none => .error .notFound
    | some (.file _) => .error .notDirectory
    | some (.dir []) => .ok { fs with tree := fs.tree.erase (parent.place ++ [name]) }
    | some (.dir _) => .error .notEmpty

/-- Takes away a file, or a directory with all in it. The directory is emptied
first; a path that runs through its entries does not lead to it any more then, and
it stays. -/
def remove (fs : FileSystem) (p : Path) : Change IoError :=
  match fs.position p with
  | .error e => ⟨fs, some e⟩
  | .ok here =>
    match here.node with
    | .file _ => ⟨{ fs with tree := fs.tree.erase here.place }, none⟩
    | .dir _ =>
      let emptied := { fs with tree := fs.tree.set here.place (.dir []) }
      match emptied.removeEmptyDir p with
      | .ok left => ⟨left, none⟩
      | .error .notFound => ⟨emptied, none⟩
      | .error e => ⟨emptied, some e⟩

/-- What failed when a text was to be written. -/
structure WriteError where
  path : Path
  /-- Whether the directory for the file could not be made. -/
  atDirectory : Bool
  cause : IoError
  deriving DecidableEq, Repr

def WriteError.message (e : WriteError) : String :=
  let what := if e.atDirectory then "failed to create directory: " else "failed to write file: "
  what ++ e.path.text ++ ": " ++ e.cause.message

/-- Makes the directory that the file at a path stands in, unless it is there. -/
def ensureParent (fs : FileSystem) (p : Path) : Change WriteError :=
  match p.parent? with
  | none => ⟨fs, none⟩
  | some parent =>
    if parent.text = "" || fs.pathExists parent then ⟨fs, none⟩
    else (fs.createDirAll parent).mapFailure (⟨parent, true, ·⟩)

def writeText (fs : FileSystem) (p : Path) (text : String) : Change WriteError :=
  (fs.ensureParent p).andThen fun fs' =>
    .ofExcept fs' ((fs'.writeBytes p text.toUTF8).mapError (⟨p, false, ·⟩))

end FileSystem

end SolutionTree
