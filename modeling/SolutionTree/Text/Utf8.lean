/-!
Texts and their UTF-8 bytes.

`utf8` writes a text as bytes. `lossy` reads any bytes as a text: a character is
read from a first byte and as many further ones as that byte announces, and where a
byte is missing or lies out of bounds, one replacement character stands for the
bytes of the character so far, and the byte is read anew. The bounds leave out
longer forms than need be, the surrogates and what lies behind the last character.
-/

namespace SolutionTree.Text

def utf8 (s : String) : List UInt8 :=
  s.toList.flatMap String.utf8EncodeChar

/-- What stands for bytes that are no character. -/
def replacement : Char := '\uFFFD'

/-- A character of which some bytes are missing: how many, the bounds of the next
one, and the value of those that were read. -/
structure Begun where
  missing : Nat
  lowest : Nat
  highest : Nat
  value : Nat
  deriving DecidableEq, Repr

/-- The least byte that may follow a first one. -/
def lowestAfter (first : Nat) : Nat :=
  if first = 0xE0 then 0xA0 else if first = 0xF0 then 0x90 else 0x80

/-- The greatest byte that may follow a first one. -/
def highestAfter (first : Nat) : Nat :=
  if first = 0xED then 0x9F else if first = 0xF4 then 0x8F else 0xBF

/-- The character that a first byte begins, if there is one. -/
def begin? (first : Nat) : Option Begun :=
  let begun := fun missing base =>
    some ⟨missing, lowestAfter first, highestAfter first, first - base⟩
  if 0xC2 ≤ first ∧ first ≤ 0xDF then begun 1 0xC0
  else if 0xE0 ≤ first ∧ first ≤ 0xEF then begun 2 0xE0
  else if 0xF0 ≤ first ∧ first ≤ 0xF4 then begun 3 0xF0
  else none

/-- Reads a first byte: the characters that it makes, and the one that it begins. -/
def readFirst (byte : Nat) : List Char × Option Begun :=
  if byte < 0x80 then ([Char.ofNat byte], none)
  else
    match begin? byte with
    | some begun => ([], some begun)
    | none => ([replacement], none)

/-- Reads a byte after others of a character. -/
def readNext (begun : Begun) (byte : Nat) : List Char × Option Begun :=
  if begun.lowest ≤ byte ∧ byte ≤ begun.highest then
    let value := begun.value * 64 + byte % 64
    if begun.missing = 1 then ([Char.ofNat value], none)
    else ([], some ⟨begun.missing - 1, 0x80, 0xBF, value⟩)
  else
    let next := readFirst byte
    (replacement :: next.1, next.2)

/-- Reads bytes, the first of which may belong to a character that is begun. -/
def readBytes : Option Begun → List UInt8 → List Char
  | none, [] => []
  | some _, [] => [replacement]
  | none, byte :: bytes =>
    let next := readFirst byte.toNat
    next.1 ++ readBytes next.2 bytes
  | some begun, byte :: bytes =>
    let next := readNext begun byte.toNat
    next.1 ++ readBytes next.2 bytes

def lossy (bytes : List UInt8) : String :=
  String.ofList (readBytes none bytes)

end SolutionTree.Text
