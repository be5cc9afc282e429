import SolutionTree.Text.Pieces

/-!
Paths.

A path is a text whose segments stand between slashes; a leading slash makes it
absolute. `components` is its meaning: empty segments and `.` count for nothing,
except that a relative path may start with one `.`. The operations work on the text
and keep what they do not touch, so a path is printed as it was given: `join` puts a
path below another, `parent?` drops the last component, and `ancestors` lists a path
and all its parents.
-/

namespace SolutionTree

/-- A path, as the text it was given as. -/
structure Path where
  text : String
  deriving DecidableEq, Repr, Inhabited

instance : ToString Path := ⟨Path.text⟩

namespace Path

/-- One step of a path. -/
inductive Component where
  | root
  | current
  | parent
  | name (text : String)
  deriving DecidableEq, Repr

/-- Where a path starts: at the root, at a leading `.`, or plainly with its first
segment. -/
inductive Anchor where
  | root
  | here
  | plain
  deriving DecidableEq, Repr

/-! ### Segments and components -/

def isAbsolute (p : Path) : Bool :=
  p.text.toList.head? == some '/'

/-- The texts between the slashes. -/
def segments (p : Path) : List String :=
  Text.pieces '/' p.text

/-- A segment that stands for no step. -/
def isIdle (segment : String) : Bool :=
  segment == "" || segment == "."

/-- The step that a segment stands for, if any. -/
def stepOf? (segment : String) : Option Component :=
  if isIdle segment then none
  else if segment == ".." then some .parent
  else some (.name segment)

/-- The anchor of a path and the segments after it. -/
def anchored (p : Path) : Anchor × List String :=
  match p.segments with
  | "" :: rest => if p.isAbsolute then (.root, rest) else (.plain, "" :: rest)
  | "." :: rest => (.here, rest)
  | body => (.plain, body)

def Anchor.components : Anchor → List Component
  | .root => [.root]
  | .here => [.current]
  | .plain => []

def components (p : Path) : List Component :=
  p.anchored.1.components ++ p.anchored.2.filterMap stepOf?

/-! ### Putting together -/

/-- The path `p` below `base`: an absolute `p` stands alone, and otherwise one slash
parts the two. -/
def join (base p : Path) : Path :=
  if p.isAbsolute then p
  else if base.text = "" then p
  else if base.text.toList.getLast? = some '/' then ⟨base.text ++ p.text⟩
  else ⟨base.text ++ "/" ++ p.text⟩

/-- The path `base/name`. -/
def child (base : Path) (name : String) : Path :=
  base.join ⟨name⟩

/-- The path written as an anchor and segments. -/
def ofAnchored : Anchor → List String → Path
  | .root, body => ⟨"/" ++ String.intercalate "/" body⟩
  | .here, [] => ⟨"."⟩
  | .here, body => ⟨"./" ++ String.intercalate "/" body⟩
  | .plain, body => ⟨String.intercalate "/" body⟩

/-! ### Taking apart -/

/-- What is left of a path when components are dropped from its end: the anchor, and
the segments after it, the last one first. -/
structure Trunk where
  anchor : Anchor
  backward : List String
  deriving DecidableEq, Repr

/-- The path that is left. -/
def Trunk.path (t : Trunk) : Path :=
  ofAnchored t.anchor t.backward.reverse

/-- What is left of reversed segments each time that one more step is dropped. -/
def dropSteps : List String → List (List String)
  | [] => []
  | segment :: before =>
    if isIdle segment then dropSteps before
    else before.dropWhile isIdle :: dropSteps before

/-- What is left of a path each time that one more component is dropped. -/
def trunks (p : Path) : List Trunk :=
  let (anchor, body) := p.anchored
  (dropSteps body.reverse).map (Trunk.mk anchor) ++
    if anchor = .here then [⟨.plain, []⟩] else []

/-- The path without its last component; none for the root and the empty path. -/
def parent? (p : Path) : Option Path :=
  p.trunks.head?.map Trunk.path

/-- The path itself, its parent, and so on up to the root or the empty path. -/
def ancestors (p : Path) : List Path :=
  p :: p.trunks.map Trunk.path

/-- The nearest of a path and its parents that has a property. -/
def nearest? (p : Path) (holds : Path → Bool) : Option Path :=
  if holds p then some p
  else p.trunks.findSome? fun t => if holds t.path then some t.path else none

/-- The last component, when it is a name. -/
def fileName? (p : Path) : Option String :=
  match p.components.getLast? with
  | some (.name text) => some text
  | _ => none

def extension? (p : Path) : Option String := do
  let name ← p.fileName?
  match Text.beforeLast? '.' name.toList with
  | none => none
  | some [] => none
  | some _ => some (String.ofList (Text.afterLast '.' name.toList))

/-- The file name up to its last dot, or whole when it has no extension. -/
def stem? (p : Path) : Option String := do
  let name ← p.fileName?
  match Text.beforeLast? '.' name.toList with
  | none => some name
  | some [] => some name
  | some before => some (String.ofList before)

@[simp] theorem text_mk (s : String) : (Path.mk s).text = s := rfl

theorem join_of_isAbsolute (base : Path) {p : Path} (h : p.isAbsolute = true) :
    base.join p = p := by
  simp [join, h]

end Path

end SolutionTree
