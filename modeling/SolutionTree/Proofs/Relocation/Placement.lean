import SolutionTree.Project
import SolutionTree.Proofs.FileSystem.Below
import SolutionTree.Proofs.FileTree.WellFormed
import SolutionTree.Proofs.Manifest.IncludeDirs
import SolutionTree.Proofs.Path.Front

/-!
One project at two roots.

`Relocates` says that two file systems have the same tree at two roots, with
settings that name directories below the root. What comes of the settings is then
told by the place of the root and the names below it (`create_eq_projectAt`), and
what a manifest makes of `$(ROOT)` does not tell the root (`parseAt_relocates`),
unless nothing but slashes and backslashes stands behind it.
-/

namespace SolutionTree

open SolutionTree.Path

/-! ### Settings that name directories below the root -/

/-- A relative path of plain names, at least one. -/
structure Path.Descends (p : Path) (names : List String) : Prop where
  ne_nil : names ≠ []
  isPlain : ∀ name ∈ names, isPlain name = true
  eq : p = ⟨dirText names⟩

/-- The names that lead from a root to the directories of a project. -/
structure LayoutNames where
  source : List String
  output : List String
  intermediate : List String

/-- Settings whose directories are relative paths of plain names, and whose
manifests have a plain name. -/
structure LayoutSettings.Names (l : LayoutSettings) (n : LayoutNames) : Prop where
  sourceDir : l.sourceDir.Descends n.source
  outputDir : l.outputDir.Descends n.output
  intermediateDir : l.intermediateDir.Descends n.intermediate
  manifest : isPlain l.manifest = true

/-- The project that stands at a place. -/
def LayoutNames.projectAt (n : LayoutNames) (settings : Settings) (place : List String) :
    Project where
  root := ofPlace place
  sourceDir := ofPlace (place ++ n.source)
  outputDir := ofPlace (place ++ n.output)
  intermediateDir := ofPlace (place ++ n.intermediate)
  settings := settings

namespace Manifest

/-- An include directory that is `$(ROOT)` and at most slashes and backslashes
behind it. -/
def IsBareRoot (token : String) : Prop :=
  ∃ rest, token.toList = rootToken ++ rest ∧ ∀ c ∈ rest, c = '/' ∨ c = '\\'

/-- A text with such an include directory. -/
def NamesBareRoot (text : String) : Prop :=
  ∃ value, valuesOf (linesOf text) .includeDirs = some value ∧
    ∃ token ∈ tokens value, IsBareRoot token

end Manifest

/-- Whether what names lead to below a root can be looked up by its path. -/
def Path.Fits (root : Path) (names : List String) : Prop :=
  FileSystem.refusal? (ofPlace (root.place ++ names)) = none

instance (root : Path) (names : List String) : Decidable (root.Fits names) :=
  inferInstanceAs (Decidable (FileSystem.refusal? _ = none))

/-- One project at two roots: the same tree and the same settings, which name
directories below the root, and no manifest with a bare `$(ROOT)`. -/
structure Relocates (settings : Settings) (n : LayoutNames) (tree : FileTree)
    (fs fs' : FileSystem) (root root' : Path) : Prop where
  layout : settings.layout.Names n
  wellFormed : tree.WellFormed
  isAbsolute : root.isAbsolute = true
  isAbsolute' : root'.isAbsolute = true
  node : fs.node? root = .ok tree
  node' : fs'.node? root' = .ok tree
  includes : ∀ names content text,
    tree.find? (n.source ++ names ++ [settings.layout.manifest]) = some (.file content) →
      String.fromUTF8? content = some text → ¬ Manifest.NamesBareRoot text

variable {settings : Settings} {n : LayoutNames} {tree : FileTree} {fs fs' : FileSystem}
  {root root' : Path}

theorem Relocates.symm (h : Relocates settings n tree fs fs' root root') :
    Relocates settings n tree fs' fs root' root :=
  ⟨h.layout, h.wellFormed, h.isAbsolute', h.isAbsolute, h.node', h.node, h.includes⟩

/-! ### One root -/

section Root

variable {names : List String}

theorem isSegment_place (root : Path) : ∀ name ∈ root.place, IsSegment name :=
  fun name hm => isSegment_of_isPlain (isPlain_place root name hm)

/-- A relative path of plain names leads down from any root. -/
theorem Path.Descends.join_eq {p : Path} (h : p.Descends names) (root : Path) :
    (ofPlace root.place).join p = ofPlace (root.place ++ names) := by
  rw [h.eq]
  exact join_dirText (isSegment_place root) h.ne_nil
    fun name hm => isSegment_of_isPlain (h.isPlain name hm)

theorem isPlain_place_append (root : Path) (hnames : ∀ name ∈ names, isPlain name = true) :
    ∀ name ∈ root.place ++ names, isPlain name = true :=
  List.forall_mem_append.mpr ⟨isPlain_place root, hnames⟩

/-- **What comes of the settings** at a root is told by the place of the root and by
names. The one thing that is asked of the disk is whether the source directory is
there. -/
theorem Project.create_eq_projectAt (hlayout : settings.layout.Names n)
    (habs : root.isAbsolute = true) (hnode : fs.node? root = .ok tree) :
    Project.create fs root settings =
      if fs.isDir (ofPlace (root.place ++ n.source)) then .ok (n.projectAt settings root.place)
      else .error (.sourceRootMissing (ofPlace (root.place ++ n.source))) := by
  have hsource : fs.normalize (ofPlace (root.place ++ n.source)) =
      ofPlace (root.place ++ n.source) :=
    FileSystem.normalize_ofPlace fs (isPlain_place_append root hlayout.sourceDir.isPlain)
  simp only [Project.create, FileSystem.normalize_of_node? habs hnode,
    hlayout.sourceDir.join_eq, hlayout.outputDir.join_eq, hlayout.intermediateDir.join_eq, hsource]
  rfl

/-- What stands below the root of a project, by its path. -/
theorem node?_below (habs : root.isAbsolute = true) (hnode : fs.node? root = .ok tree)
    (hnames : ∀ name ∈ names, isPlain name = true) :
    fs.node? (ofPlace (root.place ++ names)) =
      match FileSystem.refusal? (ofPlace (root.place ++ names)) with
      | some e => .error e
      | none => FileSystem.seek tree names :=
  FileSystem.node?_ofPlace_append (isPlain_place root) hnames
    (FileSystem.node?_ofPlace_place habs hnode)

/-- Below the root, a path that is not too long is looked up in the tree that stands
there. -/
theorem node?_below_of_fits (habs : root.isAbsolute = true) (hnode : fs.node? root = .ok tree)
    (hnames : ∀ name ∈ names, isPlain name = true) (hfits : root.Fits names) :
    fs.node? (ofPlace (root.place ++ names)) = FileSystem.seek tree names := by
  rw [node?_below habs hnode hnames, show FileSystem.refusal? _ = none from hfits]

theorem fits_of_node? {node : FileTree}
    (h : fs.node? (ofPlace (root.place ++ names)) = .ok node) : root.Fits names :=
  (FileSystem.node?_eq_ok_iff.mp h).1

/-- What is looked up by a path below the root stands in the tree under the names of
the path. -/
theorem find?_of_node? {node : FileTree} (habs : root.isAbsolute = true)
    (hnode : fs.node? root = .ok tree) (hnames : ∀ name ∈ names, isPlain name = true)
    (h : fs.node? (ofPlace (root.place ++ names)) = .ok node) : tree.find? names = some node := by
  rw [node?_below_of_fits habs hnode hnames (fits_of_node? h)] at h
  exact (FileSystem.seek_eq_ok_iff hnames).mp h

end Root

/-! ### Include directories -/

namespace Manifest

variable {token : String}

/-- **An include directory below `$(ROOT)` does not tell the root.** It is the way
from the output directory to something below the root, and both have the root in
front. -/
theorem includeDir_relocates (htoken : ¬ IsBareRoot token)
    (hout : ∃ name ∈ n.output, IsSolid name) (root root' : Path) :
    includeDir (n.projectAt settings root.place).includeBase token =
      includeDir (n.projectAt settings root'.place).includeBase token := by
  by_cases hroot : rootToken <+: token.toList
  · obtain ⟨rest, hrest⟩ := hroot
    have hsplit := hrest.symm
    cases hbelow : rest.dropWhile isSeparator with
    | nil =>
      refine absurd ⟨rest, hsplit, ?_⟩ htoken
      simpa [isSeparator] using List.dropWhile_eq_nil_iff.mp hbelow
    | cons c cs =>
      have hc := ne_of_dropWhile_isSeparator hbelow
      have hrel : isAbsolute ⟨String.ofList (c :: cs)⟩ = false := by simp [isAbsolute, hc.1]
      have hsolid : IsSolid (String.ofList (c :: cs)) := ⟨c, by simp, hc⟩
      have hbase : ∀ r : Path, includeDir (n.projectAt settings r.place).includeBase token =
          Path.relative ⟨String.ofList (c :: cs)⟩ ⟨dirText n.output⟩ := by
        intro r
        rw [includeDir_of_rootToken hsplit]
        simp only [belowRoot, hbelow, List.isEmpty_cons, Bool.false_eq_true, ↓reduceIte]
        exact relative_join (isSegment_place r) hrel hsolid hout
      rw [hbase root, hbase root']
  · rw [includeDir_of_not_rootToken hroot, includeDir_of_not_rootToken hroot]

/-- A text without a bare `$(ROOT)` is read alike at both roots, errors included. -/
theorem parseAt_relocates {text : String} {m : Manifest} {path : Path}
    (htext : ¬ NamesBareRoot text) (hout : ∃ name ∈ n.output, IsSolid name) (path' : Path)
    (h : parseAt (n.projectAt settings root.place).includeBase path text = .ok m) :
    parseAt (n.projectAt settings root'.place).includeBase path' text = .ok m := by
  have hvalues : ofValues (n.projectAt settings root.place).includeBase (valuesOf (linesOf text)) =
      ofValues (n.projectAt settings root'.place).includeBase (valuesOf (linesOf text)) := by
    have hdirs : ∀ token ∈ ((valuesOf (linesOf text) .includeDirs).map tokens).getD [],
        includeDir (n.projectAt settings root.place).includeBase token =
          includeDir (n.projectAt settings root'.place).includeBase token := by
      intro token hmem
      cases hvalue : valuesOf (linesOf text) .includeDirs with
      | none => simp [hvalue] at hmem
      | some value =>
        rw [hvalue] at hmem
        exact includeDir_relocates (fun hbare => htext ⟨value, hvalue, token, hmem, hbare⟩) hout _ _
    simp only [ofValues, List.map_congr_left hdirs]
  rcases parse_outcome (n.projectAt settings root.place).includeBase text with
    ⟨e, he, hearliest⟩ | ⟨hok, hwf⟩
  · rw [parseAt, he] at h
    contradiction
  · rcases parse_outcome (n.projectAt settings root'.place).includeBase text with
      ⟨e, -, hfirst, hmalformed, -, -⟩ | ⟨hok', -⟩
    · exact absurd hmalformed (hwf _ _ _ _ hfirst)
    · rw [parseAt, hok] at h
      rw [parseAt, hok', ← hvalues]
      exact h

end Manifest

end SolutionTree
