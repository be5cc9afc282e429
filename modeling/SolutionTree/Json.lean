import SolutionTree.Text.Hex

/-!
JSON documents with their fields in a fixed order.

`compact` writes a document on one line without blanks. `pretty` puts every field
and element on a line of its own, two blanks further in than what holds it; an empty
array or object stays on one line. In strings, quotes, backslashes and control
characters are escaped, and nothing else.
-/

namespace SolutionTree

inductive Json where
  | null
  | bool (b : Bool)
  | number (n : Nat)
  | string (s : String)
  | array (elements : List Json)
  | object (fields : List (String × Json))
  deriving Repr, Inhabited

namespace Json

/-- How a character is written in a string. -/
def escape (c : Char) : List Char :=
  if c == '"' then ['\\', '"']
  else if c == '\\' then ['\\', '\\']
  else if c == '\n' then ['\\', 'n']
  else if c == '\r' then ['\\', 'r']
  else if c == '\t' then ['\\', 't']
  else if c == '\x08' then ['\\', 'b']
  else if c == '\x0c' then ['\\', 'f']
  else if c.toNat < 0x20 then
    ['\\', 'u', '0', '0'] ++ Text.Hex.octet .lower (UInt8.ofNat c.toNat)
  else [c]

def quoted (s : String) : String :=
  String.ofList ('"' :: s.toList.flatMap escape ++ ['"'])

/-- A document that may be missing. -/
def optional {α : Type} (write : α → Json) : Option α → Json
  | none => .null
  | some a => write a

/-- A field that is left out when there is no value. -/
def fieldIf {α : Type} (name : String) (write : α → Json) : Option α → List (String × Json)
  | none => []
  | some a => [(name, write a)]

def strings (ss : List String) : Json :=
  .array (ss.map .string)

mutual

def compact : Json → String
  | .null => "null"
  | .bool b => if b then "true" else "false"
  | .number n => toString n
  | .string s => quoted s
  | .array elements => "[" ++ String.intercalate "," (compactElements elements) ++ "]"
  | .object fields => "\x7b" ++ String.intercalate "," (compactFields fields) ++ "\x7d"

def compactElements : List Json → List String
  | [] => []
  | d :: rest => d.compact :: compactElements rest

def compactFields : List (String × Json) → List String
  | [] => []
  | (name, d) :: rest => (quoted name ++ ":" ++ d.compact) :: compactFields rest

end

/-- The start of a line that stands `depth` levels in. -/
def lineStart (depth : Nat) : String :=
  "\n" ++ String.ofList (List.replicate (2 * depth) ' ')

/-- Puts written parts on lines of their own between brackets. -/
def block (opening closing : String) (depth : Nat) (parts : List String) : String :=
  if parts.isEmpty then opening ++ closing
  else
    opening ++ lineStart (depth + 1) ++
      String.intercalate ("," ++ lineStart (depth + 1)) parts ++ lineStart depth ++ closing

mutual

/-- The document over several lines, `depth` levels in. -/
def prettyAt (depth : Nat) : Json → String
  | .array elements => block "[" "]" depth (prettyElements (depth + 1) elements)
  | .object fields => block "\x7b" "\x7d" depth (prettyFields (depth + 1) fields)
  | .null => compact .null
  | .bool b => compact (.bool b)
  | .number n => compact (.number n)
  | .string s => compact (.string s)

def prettyElements (depth : Nat) : List Json → List String
  | [] => []
  | d :: rest => prettyAt depth d :: prettyElements depth rest

def prettyFields (depth : Nat) : List (String × Json) → List String
  | [] => []
  | (name, d) :: rest => (quoted name ++ ": " ++ prettyAt depth d) :: prettyFields depth rest

end

def pretty (d : Json) : String :=
  prettyAt 0 d

end Json

end SolutionTree
