import SolutionTree.Command.Run

/-!
The program.

A run is worked out on a picture of the disk: the places on the way to each path
that the run asks for, and the outline of its source tree with the contents of the
manifests. What the run prints is printed, and a file that it wrote is written to
the disk.
-/

namespace SolutionTree.Disk

/-- The places on the way along segments, each after the ones that lead to it. -/
def placesAlong (place : List String) : List String → List (List String)
  | [] => []
  | segment :: rest =>
    let next := Path.stepPlace place segment
    next :: placesAlong next rest

/-- The places on the way to a path. -/
def placesTo (fs : FileSystem) (p : Path) : List (List String) :=
  placesAlong (fs.startPlace p) p.segments

/-- Whether a directory (true) or a file (false) stands at a place on the disk, if
anything does. -/
def isDirAt? (place : List String) : IO (Option Bool) := do
  let path := (← IO.currentDir) / (Path.ofPlace place).text
  try
    match (← path.metadata).type with
    | .dir => return some true
    | _ => return some false
  catch _ => return none

/-- The bytes of the file at a place, none of them when it cannot be read. -/
def bytesAt (place : List String) : IO ByteArray := do
  try IO.FS.readBinFile (Path.ofPlace place).text
  catch _ => return ByteArray.empty

/-- Adds what stands at a place to a picture; a directory that is already there is
kept. -/
def addPlace (tree : FileTree) (place : List String) : IO FileTree := do
  match ← isDirAt? place with
  | none => return tree
  | some true => return if (tree.find? place).isSome then tree else tree.set place (.dir [])
  | some false => return tree.set place (.file (← bytesAt place))

def addPath (fs : FileSystem) (p : Path) : IO FileSystem := do
  return { fs with tree := ← (placesTo fs p).foldlM addPlace fs.tree }

/-- The directories and the names of the files below a place, without their
contents. -/
partial def outlineAt (place : List String) : IO FileTree := do
  match ← isDirAt? place with
  | some true =>
    let path := (← IO.currentDir) / (Path.ofPlace place).text
    let names := (← path.readDir).toList.map (·.fileName)
    return .dir (← names.mapM fun name => return (name, ← outlineAt (place ++ [name])))
  | _ => return .file ByteArray.empty

/-- Adds the source tree of a project to a picture, with the contents of its
manifests. -/
def addSources (fs : FileSystem) (source : Path) (manifest : String) : IO FileSystem := do
  let fs ← addPath fs source
  match fs.locate source with
  | .error _ => return fs
  | .ok place =>
    let node ← outlineAt place
    let top := Path.ofPlace place
    let fs := { fs with tree := fs.tree.set place node }
    (walk (fun _ => true) top node).foldlM (fun fs dir => addPath fs (dir.child manifest)) fs

/-- The picture of the disk that an invocation needs. -/
def addInvocation (fs : FileSystem) (invocation : Command.Invocation) : IO FileSystem := do
  let root := Command.rootOf fs invocation
  let output :=
    match invocation.request with
    | .generate (some path) _ => [path]
    | _ => []
  let asked := root.child Settings.fileName :: invocation.settingsFile.toList ++ output
  let fs ← asked.foldlM addPath fs
  match Project.loadSettings fs root invocation.settingsFile with
  | .error _ => return fs
  | .ok settings =>
    addSources fs ((fs.normalize root).join settings.layout.sourceDir) settings.layout.manifest

/-- The picture of the disk that a command line needs. -/
def picture (args : List String) (envRoot : Option String) : IO FileSystem := do
  let here : Path := ⟨(← IO.currentDir).toString⟩
  let fs : FileSystem := { tree := .dir [], cwd := here.place }
  let fs ← here.ancestors.foldlM (fun fs dir => addPath fs (dir.child Settings.fileName)) fs
  match Command.parse args envRoot with
  | .error _ => return fs
  | .ok invocation => addInvocation fs invocation

/-- Puts what a run left at a place on the disk, if it is new. -/
def savePlace (before after : FileSystem) (place : List String) : IO Unit := do
  let path := (Path.ofPlace place).text
  match before.tree.find? place, after.tree.find? place with
  | none, some (.dir _) => IO.FS.createDir path
  | some (.file old), some (.file new) => if old != new then IO.FS.writeBinFile path new
  | none, some (.file new) => IO.FS.writeBinFile path new
  | _, _ => return

def save (args : List String) (envRoot : Option String) (before after : FileSystem) :
    IO Unit := do
  match Command.parse args envRoot with
  | .ok { request := .generate (some path) _, .. } =>
    (placesTo before path).forM (savePlace before after)
  | _ => return

end SolutionTree.Disk

def main (args : List String) : IO UInt32 := do
  let envRoot ← IO.getEnv "TRELLIS_ROOT"
  let before ← SolutionTree.Disk.picture args envRoot
  let terminal ← (← IO.getStderr).isTty
  let outcome := SolutionTree.Command.answer before args envRoot terminal
  SolutionTree.Disk.save args envRoot before outcome.fileSystem
  IO.eprint outcome.stderr
  IO.print outcome.stdout
  return UInt32.ofNat outcome.exit
