import SolutionTree.Text.Lines
import SolutionTree.Toml.Scalar

/-!
TOML documents.

A document is lines of three kinds, with comments and empty lines between them: a
header opens a table, a doubled header begins one more element of an array of
tables, and a key with a value goes into the table that was opened last. `parse`
gives the table of the whole document, or none when the text is not TOML. Values may
nest to a fixed depth, and dotted keys have a fixed length.
-/

namespace SolutionTree.Toml

/-- How deep values may nest, and how many parts a dotted key may have, both
exclusive. -/
def depthLimit : Nat := 80

/-! ### Keys and blanks -/

/-- A character of a key without quotes. -/
def isBareKey (c : Char) : Bool :=
  c.isAlphanum || c == '-' || c == '_'

def simpleKey : Reader String := fun cs =>
  match cs with
  | '"' :: _ | '\'' :: _ => lineString cs
  | _ =>
    let name := cs.takeWhile isBareKey
    if name.isEmpty then none else some (String.ofList name, cs.drop name.length)

/-- Reads the parts of a dotted key, at most `n`, with blanks around each. -/
def keyParts : Nat → Reader (List String)
  | 0, _ => none
  | n + 1, cs =>
    match simpleKey (cs.dropWhile isSpace) with
    | none => none
    | some (part, rest) =>
      match rest.dropWhile isSpace with
      | '.' :: more => (keyParts n more).map fun x => (part :: x.1, x.2)
      | rest => some ([part], rest)

def key : Reader (List String) :=
  keyParts (depthLimit - 1)

def dropComment : List Char → List Char
  | '#' :: rest => rest.dropWhile isPrintable
  | cs => cs

/-- Reads what may follow on a line: blanks, a comment, and the end of the line or
the text. -/
def lineEnd? (cs : List Char) : Option (List Char) :=
  match dropComment (cs.dropWhile isSpace) with
  | [] => some []
  | rest => newline? rest

/-- Drops blanks, comments and ends of lines, at most `n` of these. -/
def skipLines : Nat → List Char → List Char
  | 0, cs => cs
  | n + 1, cs =>
    let cs := cs.dropWhile isSpace
    match newline? (dropComment cs) with
    | some rest => skipLines n rest
    | none => cs

/-- Drops blanks, comments and ends of lines. -/
def skipBlank (cs : List Char) : List Char :=
  skipLines cs.length cs

/-! ### Values -/

/-- Reads the elements of an array, at most `n`, and the bracket that closes it. -/
def elements (element : Reader Value) : Nat → Reader (List Value)
  | 0, _ => none
  | n + 1, cs =>
    match skipBlank cs with
    | ']' :: rest => some ([], rest)
    | cs =>
      match element cs with
      | none => none
      | some (v, rest) =>
        match skipBlank rest with
        | ',' :: rest => (elements element n rest).map fun x => (v :: x.1, x.2)
        | ']' :: rest => some ([v], rest)
        | _ => none

/-- Reads the keys and values of an inline table, at most `n`, and the brace that
closes it. -/
def inlineEntries (element : Reader Value) : Nat → Entries → Reader Entries
  | 0, _, _ => none
  | n + 1, entries, cs =>
    match key cs with
    | some (keys, '=' :: rest) =>
      match element (rest.dropWhile isSpace) with
      | none => none
      | some (v, rest) =>
        match insertKey entries keys v with
        | none => none
        | some entries =>
          match rest.dropWhile isSpace with
          | ',' :: rest => inlineEntries element n entries rest
          | '}' :: rest => some (entries, rest)
          | _ => none
    | _ => none

def inlineTable (element : Reader Value) : Reader Value := fun cs =>
  match cs.dropWhile isSpace with
  | '}' :: rest => some (.table [], rest)
  | rest =>
    (inlineEntries element (cs.length + 1) [] rest).map
      fun x => (.table (entriesToValues x.1), x.2)

/-- Reads a value that nests at most `depth` deep. -/
def value : (depth : Nat) → Reader Value
  | 0, cs =>
    match cs with
    | '[' :: _ | '{' :: _ => none
    | _ => scalar cs
  | depth + 1, cs =>
    match cs with
    | '[' :: rest => (elements (value depth) (rest.length + 1) rest).map fun x => (.array x.1, x.2)
    | '{' :: rest => inlineTable (value depth) rest
    | _ => scalar cs

/-! ### Lines -/

/-- A line that says something. -/
inductive Statement where
  | header (keys : List String)
  | element (keys : List String)
  | entry (keys : List String) (v : Value)

def statement : Reader Statement := fun cs =>
  match cs with
  | '[' :: '[' :: rest =>
    match key rest with
    | some (keys, ']' :: ']' :: rest) => (lineEnd? rest).map (.element keys, ·)
    | _ => none
  | '[' :: rest =>
    match key rest with
    | some (keys, ']' :: rest) => (lineEnd? rest).map (.header keys, ·)
    | _ => none
  | cs =>
    match key cs with
    | some (keys, '=' :: rest) =>
      match value (depthLimit - 1) (rest.dropWhile isSpace) with
      | some (v, rest) => (lineEnd? rest).map (.entry keys v, ·)
      | none => none
    | _ => none

/-- Reads at most `n` statements, with comments and empty lines between them. -/
def statements : Nat → List Char → Option (List Statement)
  | 0, _ => none
  | n + 1, cs =>
    match cs.dropWhile isSpace with
    | [] => some []
    | cs =>
      match lineEnd? cs with
      | some rest => statements n rest
      | none =>
        match statement cs with
        | none => none
        | some (s, rest) => (statements n rest).map (s :: ·)

/-- What a document says so far: its tables, and the keys of the table opened last.
-/
structure Draft where
  entries : Entries := []
  current : List String := []

/-- Lets a statement act on a document. -/
def Draft.add (draft : Draft) : Statement → Option Draft
  | .header keys => do
    let last ← keys.getLast?
    let entries ← modifyTable (openTable last) keys.dropLast draft.entries
    return ⟨entries, keys⟩
  | .element keys => do
    let last ← keys.getLast?
    let entries ← modifyTable (openElement last) keys.dropLast draft.entries
    return ⟨entries, keys⟩
  | .entry keys v => do
    let entries ← modifyTable (insertKey · keys v) draft.current draft.entries
    return ⟨entries, draft.current⟩

def parse (s : String) : Option (List (String × Value)) := do
  let cs := Text.withoutMark s.toList
  let lines ← statements (cs.length + 1) cs
  let draft ← lines.foldlM Draft.add {}
  return entriesToValues draft.entries

end SolutionTree.Toml
