import SolutionTree.FileTree

/-!
Positions in a file tree.

A position is a node together with the directories that lead to it, so that a step
up or down costs the same at any depth. `place` gives the names from the top, and
`find?_place` says that they lead to the node.
-/

namespace SolutionTree.FileTree

/-- A node of a tree and the way back to the top: for each step, the nearest first,
the name that was entered and the node that it was entered from. -/
structure Position where
  node : FileTree
  above : List (String × FileTree)
  deriving Inhabited

namespace Position

def top (tree : FileTree) : Position := ⟨tree, []⟩

/-- The node that holds this one; the top stays where it is. -/
def up (p : Position) : Position :=
  match p.above with
  | [] => p
  | (_, parent) :: above => ⟨parent, above⟩

/-- The entry of a name. -/
def enter? (p : Position) (name : String) : Option Position :=
  match p.node.entries.lookup name with
  | none => none
  | some node => some ⟨node, (name, p.node) :: p.above⟩

/-- The node that names lead down to. -/
def descend? (p : Position) : List String → Option Position
  | [] => some p
  | name :: names =>
    match p.enter? name with
    | none => none
    | some next => next.descend? names

def place (p : Position) : List String :=
  (p.above.map Prod.fst).reverse

inductive Within (tree : FileTree) : Position → Prop where
  | top : Within tree (top tree)
  | enter {p q : Position} {name : String} :
      Within tree p → p.enter? name = some q → Within tree q

theorem above_of_enter? {p q : Position} {name : String} (h : p.enter? name = some q) :
    q.above = (name, p.node) :: p.above := by
  unfold enter? at h
  split at h
  · contradiction
  · rw [← Option.some.inj h]

theorem place_of_enter? {p q : Position} {name : String} (h : p.enter? name = some q) :
    q.place = p.place ++ [name] := by
  simp [place, above_of_enter? h]

/-- Going up leads back to where an entry was entered from. -/
theorem up_of_enter? {p q : Position} {name : String} (h : p.enter? name = some q) :
    q.up = p := by
  simp [up, above_of_enter? h]

theorem find?_of_enter? {p q : Position} {name : String} (h : p.enter? name = some q) :
    p.node.find? [name] = some q.node := by
  unfold enter? at h
  split at h
  · contradiction
  next node hn =>
    rw [← Option.some.inj h]
    simp [find?, hn]

theorem Within.up {tree : FileTree} {p : Position} (h : Within tree p) : Within tree p.up := by
  cases h with
  | top => exact .top
  | enter hp hq => rw [up_of_enter? hq]; exact hp

/-- A position of a tree remembers the node that stands at its place. -/
theorem Within.find?_place {tree : FileTree} {p : Position} (h : Within tree p) :
    tree.find? p.place = some p.node := by
  induction h with
  | top => simp [place, Position.top]
  | enter _ hq ih => rw [place_of_enter? hq, find?_append, ih, Option.bind_some, find?_of_enter? hq]

end Position

end SolutionTree.FileTree
