import SolutionTree.Identifier
import SolutionTree.Text.Blank

/-!
The text of identifiers.

`text` writes the one form that is printed: upper-case digits in groups of 8, 4, 4,
4 and 12 between hyphens, in braces. `parse` reads four forms in either case, with
blanks around: digits alone, with hyphens, with hyphens in braces, and with hyphens
after `urn:uuid:`. Which form a text is read in depends on its length in bytes
alone. `diagnose` says what is wrong with a text that is none of them.
-/

namespace SolutionTree.Identifier

open SolutionTree.Text

/-! ### Writing -/

/-- How many digits the groups of the hyphenated form have. -/
def groupLengths : List Nat := [8, 4, 4, 4, 12]

/-- Cuts digits into groups and puts hyphens between them. -/
def hyphenate : List Nat → List Char → List Char
  | [], _ => []
  | [n], digits => digits.take n
  | n :: lengths, digits => digits.take n ++ '-' :: hyphenate lengths (digits.drop n)

def digits (style : Hex.Case) (id : Identifier) : List Char :=
  id.bytes.toList.flatMap (Hex.octet style)

def hyphenated (style : Hex.Case) (id : Identifier) : List Char :=
  hyphenate groupLengths (id.digits style)

/-- The form that is printed: hyphenated, upper case, in braces. -/
def text (id : Identifier) : String :=
  String.ofList ('{' :: id.hyphenated .upper ++ ['}'])

instance : ToString Identifier := ⟨text⟩

/-! ### Reading -/

/-- Why a text is no identifier. -/
inductive ParseError where
  | badCharacter (found : Char) (position : Nat)
  | badLength (found : Nat)
  | badGroupCount (found : Nat)
  | badGroupLength (group expected found : Nat)
  deriving DecidableEq, Repr

def ParseError.message : ParseError → String
  | .badCharacter c position =>
    "invalid character: found `" ++ String.singleton c ++ "` at " ++ toString position
  | .badLength found => "invalid length: found " ++ toString found
  | .badGroupCount found => "invalid group count: expected 5, found " ++ toString found
  | .badGroupLength group expected found =>
    "invalid group length in group " ++ toString group ++ ": expected " ++ toString expected ++
      ", found " ++ toString found

/-- The form that a text is held against when it is diagnosed. -/
inductive Form where
  | any
  | hyphenated
  | braced
  | urn
  deriving DecidableEq, Repr

def byteLength : List Char → Nat
  | [] => 0
  | c :: cs => c.utf8Size + byteLength cs

/-- What stands before the digits of the URN form. -/
def urnStart : List Char := "urn:uuid:".toList

/-- Whether a text starts with `urn:uuid:` in any case. -/
def startsAsUrn (cs : List Char) : Bool :=
  (cs.take urnStart.length).map Char.toLower == urnStart

/-- What stands between braces. -/
def insideBraces? : List Char → Option (List Char)
  | '{' :: rest => if rest.getLast? = some '}' then some rest.dropLast else none
  | _ => none

/-- The identifier that thirty-two digits spell. -/
def ofDigits? (cs : List Char) : Option Identifier := do
  let bytes ← Hex.toBytes? cs
  if h : bytes.toArray.size = 16 then some ⟨⟨bytes.toArray, h⟩⟩ else none

/-- The digits of a text with hyphens where the groups end, or none. -/
def unhyphenate? : List Nat → List Char → Option (List Char)
  | [], cs => if cs.isEmpty then some [] else none
  | [n], cs => if cs.length = n then some cs else none
  | n :: lengths, cs =>
    match cs.drop n with
    | '-' :: rest => (unhyphenate? lengths rest).map (cs.take n ++ ·)
    | _ => none

def ofHyphenated? (cs : List Char) : Option Identifier :=
  (unhyphenate? groupLengths cs).bind ofDigits?

/-! ### What is wrong with a text -/

/-- Where the hyphens of a text stand, or its first character that is neither a
hyphen nor a digit; `offset` is what stands before the text that is looked at. -/
def hyphenPositions (offset : Nat) : Nat → List Char → Except ParseError (List Nat)
  | _, [] => .ok []
  | position, c :: cs =>
    if (Hex.digitValue? c).isSome then hyphenPositions offset (position + 1) cs
    else if c = '-' then (hyphenPositions offset (position + 1) cs).map (position :: ·)
    else .error (.badCharacter c (offset + position))

/-- The first group that does not end at its hyphen, counted from `group`; `start`
is where it begins. -/
def firstBadGroup : (group start : Nat) → (lengths hyphens : List Nat) → Option ParseError
  | group, start, n :: lengths, h :: hyphens =>
    if h = start + n then firstBadGroup (group + 1) (h + 1) lengths hyphens
    else some (.badGroupLength group n (h - start))
  | _, _, _, _ => none

/-- The part of a text that is looked at, the bytes before it, and the form it is
held against. -/
def lookedAt (form : Form) (cs : List Char) : List Char × Nat × Form :=
  match form, insideBraces? cs with
  | .any, some inside => (inside, 1, .braced)
  | .any, none =>
    if startsAsUrn cs then (cs.drop urnStart.length, urnStart.length, .urn) else (cs, 0, .any)
  | form, _ => (cs, 0, form)

/-- What is wrong with a text that is not of the form. -/
def diagnose (form : Form) (cs : List Char) : ParseError :=
  let length := byteLength cs
  if length = 0 || length > 45 then .badLength length
  else
    let (part, offset, form) := lookedAt form cs
    match hyphenPositions offset 0 part with
    | .error e => e
    | .ok [] => if form = .any then .badLength length else .badGroupCount 1
    | .ok hyphens =>
      if hyphens.length ≠ 4 then .badGroupCount (hyphens.length + 1)
      else (firstBadGroup 0 0 groupLengths hyphens).getD (.badGroupLength 4 12 (length - 24))

/-- Reads the hyphenated form, or says what is wrong with it. -/
def parseHyphenated (cs : List Char) : Except ParseError Identifier :=
  match ofHyphenated? cs with
  | some id => .ok id
  | none => .error (diagnose .hyphenated cs)

/-- Reads an identifier without blanks around it. -/
def parseExact (cs : List Char) : Except ParseError Identifier :=
  match byteLength cs, insideBraces? cs with
  | 32, _ =>
    match ofDigits? cs with
    | some id => .ok id
    | none => .error (diagnose .any cs)
  | 36, _ => parseHyphenated cs
  | 38, some inside => parseHyphenated inside
  | 45, _ =>
    if startsAsUrn cs then parseHyphenated (cs.drop urnStart.length)
    else .error (diagnose .any cs)
  | _, _ => .error (diagnose .any cs)

/-- Reads an identifier in any of its forms, with blanks around it or without. -/
def parse (s : String) : Except ParseError Identifier :=
  parseExact (trim s.toList)

end SolutionTree.Identifier
