/-!
Lines of a text.

A line ends at a line feed, which may have one carriage return before it; a carriage
return anywhere else belongs to the line. A text that ends in a line feed has no
empty last line. `withoutMark` drops the byte order mark that some editors put
first.
-/

namespace SolutionTree.Text

/-- Drops one carriage return from the end of a line. -/
def dropReturn (line : List Char) : List Char :=
  if line.getLast? = some '\r' then line.dropLast else line

/-- The lines of a text, from the pieces between its line feeds. -/
def linesOfPieces : List (List Char) → List (List Char)
  | [] => []
  | [last] => if last.isEmpty then [] else [last]
  | piece :: pieces => dropReturn piece :: linesOfPieces pieces

def lines (cs : List Char) : List (List Char) :=
  linesOfPieces (cs.splitOn '\n')

/-- The character that marks the byte order of a text. -/
def byteOrderMark : Char := '\uFEFF'

/-- Drops one byte order mark from the start of a text. -/
def withoutMark : List Char → List Char
  | [] => []
  | c :: cs => if c = byteOrderMark then cs else c :: cs

@[simp] theorem linesOfPieces_cons_cons (p q : List Char) (ps : List (List Char)) :
    linesOfPieces (p :: q :: ps) = dropReturn p :: linesOfPieces (q :: ps) := rfl

theorem withoutMark_cons_mark (cs : List Char) : withoutMark (byteOrderMark :: cs) = cs := by
  simp [withoutMark]

theorem withoutMark_of_head_ne {c : Char} (cs : List Char) (h : c ≠ byteOrderMark) :
    withoutMark (c :: cs) = c :: cs := by
  simp [withoutMark, h]

end SolutionTree.Text
