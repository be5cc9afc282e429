import SolutionTree.Text.Hex

/-!
Control characters in a line for a terminal.

Characters that a terminal acts on, such as the escape character and the bell, are
spelled out with their code in hexadecimal. Line breaks, tabs and the remaining
control characters stay as they are, and so does a backslash: `spellOut` is for
reading, not for reading back.
-/

namespace SolutionTree.Text.Control

/-- The characters below 128 that are spelled out: bell, backspace, form feed,
escape and delete. -/
def steering : List Nat :=
  [0x07, 0x08, 0x0c, 0x1b, 0x7f]

/-- How a character is shown; the ones from 128 on get braces around their code. -/
def spell (c : Char) : List Char :=
  let code := Hex.octet .lower (UInt8.ofNat c.toNat)
  if steering.contains c.toNat then '\\' :: 'x' :: code
  else if 0x80 ≤ c.toNat ∧ c.toNat ≤ 0x9f then '\\' :: 'u' :: '\x7b' :: code ++ ['\x7d']
  else [c]

/-- A text with the control characters in it spelled out. -/
def spellOut (s : String) : String :=
  String.ofList (s.toList.flatMap spell)

end SolutionTree.Text.Control
