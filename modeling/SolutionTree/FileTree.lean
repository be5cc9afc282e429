/-!
File trees.

A file tree is a file with its bytes, or a directory with its entries in the order
in which it lists them. A place in a tree is the list of names that leads to it from
the top. `find?` reads the node at a place, `set` puts one there and makes the
directories on the way, and `erase` takes one away.
-/

namespace SolutionTree

/-- A file, or a directory with its entries in listing order. -/
inductive FileTree where
  | file (content : ByteArray)
  | dir (entries : List (String × FileTree))
  deriving Inhabited

namespace FileTree

def isDir : FileTree → Bool
  | .file _ => false
  | .dir _ => true

def isFile : FileTree → Bool
  | .file _ => true
  | .dir _ => false

/-- The entries of a directory; a file has none. -/
def entries : FileTree → List (String × FileTree)
  | .file _ => []
  | .dir entries => entries

/-- The node at a place. -/
def find? : FileTree → List String → Option FileTree
  | node, [] => some node
  | node, name :: names =>
    match node.entries.lookup name with
    | none => none
    | some next => next.find? names

def setEntry (entries : List (String × FileTree)) (name : String) (node : FileTree) :
    List (String × FileTree) :=
  if (entries.lookup name).isSome then
    entries.map fun entry => if entry.1 = name then (name, node) else entry
  else
    entries ++ [(name, node)]

/-- Puts a node at a place. A file on the way is left alone. -/
def set : FileTree → List String → FileTree → FileTree
  | _, [], node => node
  | .file content, _ :: _, _ => .file content
  | .dir entries, name :: names, node =>
    .dir (setEntry entries name (((entries.lookup name).getD (.dir [])).set names node))

/-- Takes away the node at a place; the top of the tree is emptied. -/
def erase : FileTree → List String → FileTree
  | _, [] => .dir []
  | .file content, _ :: _ => .file content
  | .dir entries, [name] => .dir (entries.filter fun entry => entry.1 ≠ name)
  | .dir entries, name :: names =>
    match entries.lookup name with
    | none => .dir entries
    | some next => .dir (setEntry entries name (next.erase names))

@[simp] theorem find?_nil (node : FileTree) : node.find? [] = some node := by
  cases node <;> rfl

@[simp] theorem find?_file_cons (content : ByteArray) (name : String) (names : List String) :
    (file content).find? (name :: names) = none := rfl

/-- Names lead on from where the names before them lead to. -/
theorem find?_append (node : FileTree) (xs ys : List String) :
    node.find? (xs ++ ys) = (node.find? xs).bind (·.find? ys) := by
  induction xs generalizing node with
  | nil => simp
  | cons name names ih =>
    simp only [List.cons_append, find?]
    cases node.entries.lookup name with
    | none => rfl
    | some next => exact ih next

end FileTree

end SolutionTree
