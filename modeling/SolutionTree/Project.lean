import SolutionTree.Manifest
import SolutionTree.Settings

/-!
Projects: a root directory with the settings that were found for it and the
directories that they name.

The source directory has to be there and is known by its one spelling from the root.
The output directory and the intermediate directory need not exist, and their texts
are kept as they come from the settings.
-/

namespace SolutionTree

/-- A project root and its directories. -/
structure Project where
  root : Path
  sourceDir : Path
  outputDir : Path
  intermediateDir : Path
  settings : Settings
  deriving DecidableEq, Repr

namespace Project

def create (fs : FileSystem) (root : Path) (settings : Settings) : Except Fault Project :=
  let root := fs.normalize root
  let sourceDir := fs.normalize (root.join settings.layout.sourceDir)
  if fs.isDir sourceDir then
    .ok {
      root, sourceDir, settings
      outputDir := root.join settings.layout.outputDir
      intermediateDir := root.join settings.layout.intermediateDir }
  else .error (.sourceRootMissing sourceDir)

/-- The settings of the project at a root: from the given file, or from the file at
the root if there is one. -/
def loadSettings (fs : FileSystem) (root : Path) (file : Option Path) : Except Fault Settings :=
  match file with
  | some path => Settings.load fs path
  | none => Settings.loadOrDefault fs (root.child Settings.fileName)

def openAt (fs : FileSystem) (root : Path) (file : Option Path) : Except Fault Project :=
  match loadSettings fs root file with
  | .error fault => .error fault
  | .ok settings => create fs root settings

def intermediateOf (p : Project) (configuration : String) : Path :=
  p.intermediateDir.child configuration

def binaryOf (p : Project) (configuration : String) : Path :=
  p.outputDir.child configuration

def rootTargetName (p : Project) : String :=
  p.sourceDir.fileName?.getD "root"

/-- What include directories of manifests are resolved against. -/
def includeBase (p : Project) : IncludeBase :=
  ⟨p.root, p.outputDir⟩

/-- The nearest of a path and its parents that holds a settings file. -/
def findRoot? (fs : FileSystem) (start : Path) : Option Path :=
  start.nearest? fun dir => fs.isFile (dir.child Settings.fileName)

end Project

end SolutionTree
