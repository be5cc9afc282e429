import SolutionTree.Text.Hex
import SolutionTree.Toml.Value

/-!
The scalars of TOML: strings, numbers and date-times.

A reader takes characters from the start of a text and gives what they spell and the
rest, or none. Strings come in four kinds, by quote and by number of lines. A number
is first tried as a date-time, then as a float, then as an integer; integers have 64
bits, and a float may not be too large to be finite.
-/

namespace SolutionTree.Toml

/-- Reads something from the start of a text. -/
abbrev Reader (α : Type) := List Char → Option (α × List Char)

/-! ### Characters -/

/-- A blank within a line. -/
def isSpace (c : Char) : Bool :=
  c == ' ' || c == '\t'

/-- A character that may stand in comments and strings: a tab, or anything but a
control. -/
def isPrintable (c : Char) : Bool :=
  c == '\t' || (0x20 ≤ c.toNat && c.toNat != 0x7F)

/-- A character that stands for itself between double quotes. -/
def isBasic (c : Char) : Bool :=
  isPrintable c && c != '"' && c != '\\'

/-- A character that stands for itself between single quotes. -/
def isLiteral (c : Char) : Bool :=
  isPrintable c && c != '\''

/-- Reads one end of line. -/
def newline? : List Char → Option (List Char)
  | '\n' :: rest => some rest
  | '\r' :: '\n' :: rest => some rest
  | _ => none

/-! ### Strings -/

/-- The number that hexadecimal digits spell. -/
def hexNumber? (cs : List Char) : Option Nat :=
  cs.foldlM (fun n c => (Text.Hex.digitValue? c).map (16 * n + ·)) 0

/-- The character with a number, if it is one. -/
def scalarValue? (n : Nat) : Option Char :=
  if n < 0xD800 || (0xDFFF < n && n < 0x110000) then some (Char.ofNat n) else none

def unicode (count : Nat) : Reader Char := fun cs =>
  if (cs.take count).length < count then none
  else do
    let n ← hexNumber? (cs.take count)
    let c ← scalarValue? n
    return (c, cs.drop count)

def escape : Reader Char
  | 'b' :: rest => some ('\x08', rest)
  | 't' :: rest => some ('\t', rest)
  | 'n' :: rest => some ('\n', rest)
  | 'f' :: rest => some ('\x0c', rest)
  | 'r' :: rest => some ('\r', rest)
  | '"' :: rest => some ('"', rest)
  | '\\' :: rest => some ('\\', rest)
  | 'u' :: rest => unicode 4 rest
  | 'U' :: rest => unicode 8 rest
  | _ => none

/-- Puts a character in front of what is read. -/
def push (c : Char) (read : Option (List Char × List Char)) : Option (List Char × List Char) :=
  read.map fun x => (c :: x.1, x.2)

/-- Reads the rest of a string in double quotes, in at most `n` steps. -/
def basicBody : Nat → Reader (List Char)
  | 0, _ => none
  | _, [] => none
  | _, '"' :: rest => some ([], rest)
  | n + 1, '\\' :: rest =>
    match escape rest with
    | none => none
    | some (c, rest) => push c (basicBody n rest)
  | n + 1, c :: rest => if isBasic c then push c (basicBody n rest) else none

/-- Reads the rest of a string in single quotes. -/
def literalBody : Reader (List Char)
  | [] => none
  | '\'' :: rest => some ([], rest)
  | c :: rest => if isLiteral c then push c (literalBody rest) else none

/-- What a run of quotes in a string of many lines means: fewer than three are text,
and more than three end the string with the first of them as text, at most two. -/
def closingRun (quote : Char) (cs : List Char) : Option (List Char × List Char) :=
  let run := (cs.takeWhile (· == quote)).length
  if run < 3 then none
  else
    let kept := min (run - 3) 2
    some (List.replicate kept quote, cs.drop (kept + 3))

/-- Skips the blanks and ends of lines after an escaped end of line; none when the
line does not end there. -/
def continuation? (cs : List Char) : Option (List Char) :=
  (newline? (cs.dropWhile isSpace)).map
    (List.dropWhile fun c => isSpace c || c == '\n' || c == '\r')

/-- Whether every carriage return of a text has a line feed after it. -/
def returnsPaired : List Char → Bool
  | [] => true
  | '\r' :: '\n' :: rest => returnsPaired rest
  | '\r' :: _ => false
  | _ :: rest => returnsPaired rest

/-- Reads the rest of a string of many lines in double quotes, in at most `n` steps.
-/
def multiBasicBody : Nat → Reader (List Char)
  | 0, _ => none
  | _, [] => none
  | n + 1, '"' :: rest =>
    match closingRun '"' ('"' :: rest) with
    | some closed => some closed
    | none => push '"' (multiBasicBody n rest)
  | n + 1, '\\' :: rest =>
    match continuation? rest with
    | some after =>
      let skipped := rest.take (rest.length - after.length)
      if returnsPaired skipped then multiBasicBody n after else none
    | none =>
      match escape rest with
      | none => none
      | some (c, rest) => push c (multiBasicBody n rest)
  | n + 1, c :: rest =>
    match newline? (c :: rest) with
    | some after => push '\n' (multiBasicBody n after)
    | none => if isBasic c then push c (multiBasicBody n rest) else none

/-- Reads the rest of a string of many lines in single quotes, in at most `n` steps.
-/
def multiLiteralBody : Nat → Reader (List Char)
  | 0, _ => none
  | _, [] => none
  | n + 1, '\'' :: rest =>
    match closingRun '\'' ('\'' :: rest) with
    | some closed => some closed
    | none => push '\'' (multiLiteralBody n rest)
  | n + 1, c :: rest =>
    match newline? (c :: rest) with
    | some after => push '\n' (multiLiteralBody n after)
    | none => if isLiteral c then push c (multiLiteralBody n rest) else none

/-- Drops the end of line that the first line of a string may consist of. -/
def dropFirstNewline (cs : List Char) : List Char :=
  (newline? cs).getD cs

def lineString : Reader String
  | '"' :: rest => (basicBody (rest.length + 1) rest).map fun x => (String.ofList x.1, x.2)
  | '\'' :: rest => (literalBody rest).map fun x => (String.ofList x.1, x.2)
  | _ => none

def anyString : Reader String
  | '"' :: '"' :: '"' :: rest =>
    (multiBasicBody (rest.length + 1) (dropFirstNewline rest)).map
      fun x => (String.ofList x.1, x.2)
  | '\'' :: '\'' :: '\'' :: rest =>
    (multiLiteralBody (rest.length + 1) (dropFirstNewline rest)).map
      fun x => (String.ofList x.1, x.2)
  | cs => lineString cs

/-! ### Digits -/

/-- Reads the digits after the first one; an underscore needs a digit after it. -/
def moreDigits (isDigit : Char → Bool) : List Char → Option (List Char × List Char)
  | [] => some ([], [])
  | '_' :: c :: rest => if isDigit c then push c (moreDigits isDigit rest) else none
  | ['_'] => none
  | c :: rest => if isDigit c then push c (moreDigits isDigit rest) else some ([], c :: rest)

/-- Reads digits, of which underscores may stand between two. -/
def digits1 (isDigit : Char → Bool) : Reader (List Char)
  | [] => none
  | c :: rest => if isDigit c then push c (moreDigits isDigit rest) else none

def sign : List Char → Bool × List Char
  | '+' :: rest => (false, rest)
  | '-' :: rest => (true, rest)
  | cs => (false, cs)

def decimal : Reader (List Char)
  | '0' :: rest => some (['0'], rest)
  | cs => digits1 Char.isDigit cs

/-- The number that digits spell in a base. -/
def numberOf (base : Nat) (digits : List Char) : Nat :=
  digits.foldl (fun n c => base * n + (Text.Hex.digitValue? c).getD 0) 0

/-- An integer that 64 bits hold. -/
def int64? (n : Int) : Option Int :=
  if -9223372036854775808 ≤ n ∧ n ≤ 9223372036854775807 then some n else none

/-- Reads an integer in a base that its digits are marked with. -/
def basedInteger (base : Nat) (isDigit : Char → Bool) : Reader Int := fun cs => do
  let (digits, rest) ← digits1 isDigit cs
  let n ← int64? (numberOf base digits)
  return (n, rest)

def integer : Reader Int
  | '0' :: 'x' :: rest => basedInteger 16 (fun c => (Text.Hex.digitValue? c).isSome) rest
  | '0' :: 'o' :: rest => basedInteger 8 (fun c => '0' ≤ c && c ≤ '7') rest
  | '0' :: 'b' :: rest => basedInteger 2 (fun c => c == '0' || c == '1') rest
  | cs => do
    let (negative, rest) := sign cs
    let (digits, rest) ← decimal rest
    let n : Int := numberOf 10 digits
    let n ← int64? (if negative then -n else n)
    return (n, rest)

/-! ### Floats -/

/-- Whether `mantissa * 10 ^ exponent` rounds to a finite double. The bound is half
a step above the largest one; a value with too many or too few digits is told
without working it out. -/
def isFinite (mantissa : Nat) (exponent : Int) : Bool :=
  let digits : Int := (toString mantissa).length
  if mantissa = 0 || digits + exponent < 300 then true
  else if digits + exponent > 320 then false
  else
    let bound := Nat.pow 2 1024 - Nat.pow 2 970
    if 0 ≤ exponent then mantissa * Nat.pow 10 exponent.toNat < bound
    else mantissa < bound * Nat.pow 10 (-exponent).toNat

def fraction : Reader (List Char)
  | '.' :: rest => digits1 Char.isDigit rest
  | cs => some ([], cs)

def exponent : Reader (Option Int)
  | c :: rest =>
    if c == 'e' || c == 'E' then do
      let (negative, rest) := sign rest
      let (digits, rest) ← digits1 Char.isDigit rest
      let n : Int := numberOf 10 digits
      return (some (if negative then -n else n), rest)
    else some (none, c :: rest)
  | [] => some (none, [])

/-- Reads `inf` or `nan`. -/
def specialFloat : Reader Unit
  | 'i' :: 'n' :: 'f' :: rest => some ((), rest)
  | 'n' :: 'a' :: 'n' :: rest => some ((), rest)
  | _ => none

/-- Reads a float with digits: one with a fraction or an exponent. A value above all
finite ones is refused, one below them is not. -/
def plainFloat : Reader Unit := fun cs => do
  let (negative, rest) := sign cs
  let (whole, rest) ← decimal rest
  let (part, rest) ← fraction rest
  let (power, rest) ← exponent rest
  if part.isEmpty && power.isNone then none
  else
    let scaled := power.getD 0 - part.length
    if negative || isFinite (numberOf 10 (whole ++ part)) scaled then some ((), rest) else none

def float : Reader Unit := fun cs =>
  match plainFloat cs with
  | some read => some read
  | none => specialFloat (sign cs).2

/-! ### Date-times -/

/-- Reads a number of exactly `count` digits that lies between two bounds. -/
def field (count low high : Nat) : Reader Nat := fun cs =>
  let digits := cs.take count
  let n := numberOf 10 digits
  if digits.length = count ∧ digits.all Char.isDigit ∧ low ≤ n ∧ n ≤ high then
    some (n, cs.drop count)
  else none

def mark (c : Char) : Reader Unit
  | d :: rest => if d = c then some ((), rest) else none
  | [] => none

/-- How many days a month has. -/
def daysIn (year month : Nat) : Nat :=
  if month = 2 then
    if year % 4 = 0 ∧ (year % 100 ≠ 0 ∨ year % 400 = 0) then 29 else 28
  else if month ∈ [4, 6, 9, 11] then 30
  else 31

def date : Reader Unit := fun cs => do
  let (year, rest) ← field 4 0 9999 cs
  let (_, rest) ← mark '-' rest
  let (month, rest) ← field 2 1 12 rest
  let (_, rest) ← mark '-' rest
  let (_, rest) ← field 2 1 (daysIn year month) rest
  return ((), rest)

def time : Reader Unit := fun cs => do
  let (_, rest) ← field 2 0 23 cs
  let (_, rest) ← mark ':' rest
  let (_, rest) ← field 2 0 59 rest
  let (_, rest) ← mark ':' rest
  let (_, rest) ← field 2 0 60 rest
  match rest with
  | '.' :: c :: more => if c.isDigit then some ((), more.dropWhile Char.isDigit) else none
  | '.' :: [] => none
  | rest => some ((), rest)

def offset : Reader Unit
  | 'Z' :: rest => some ((), rest)
  | 'z' :: rest => some ((), rest)
  | c :: rest =>
    if c == '+' || c == '-' then do
      let (_, rest) ← field 2 0 23 rest
      let (_, rest) ← mark ':' rest
      let (_, rest) ← field 2 0 59 rest
      return ((), rest)
    else some ((), c :: rest)
  | [] => some ((), [])

/-- Reads the time after a date and its offset. -/
def timeAfterDate : Reader Unit
  | c :: rest =>
    if c == 'T' || c == 't' || c == ' ' then do
      let (_, rest) ← time rest
      offset rest
    else none
  | [] => none

def dateTime : Reader Unit := fun cs =>
  match date cs with
  | some (_, rest) =>
    match timeAfterDate rest with
    | some read => some read
    | none => some ((), rest)
  | none => time cs

/-! ### Scalars -/

/-- What a reader took, as text. -/
def taken (cs rest : List Char) : String :=
  String.ofList (cs.take (cs.length - rest.length))

/-- Reads a scalar, by its first character. -/
def scalar : Reader Value := fun cs =>
  match cs with
  | [] => none
  | 't' :: 'r' :: 'u' :: 'e' :: rest => some (.boolean true, rest)
  | 'f' :: 'a' :: 'l' :: 's' :: 'e' :: rest => some (.boolean false, rest)
  | c :: _ =>
    if c == '"' || c == '\'' then (anyString cs).map fun x => (.string x.1, x.2)
    else if c == 'i' || c == 'n' then
      (specialFloat cs).map fun x => (.float (taken cs x.2), x.2)
    else
      match dateTime cs, float cs with
      | some (_, rest), _ => some (.dateTime (taken cs rest), rest)
      | none, some (_, rest) => some (.float (taken cs rest), rest)
      | none, none => (integer cs).map fun x => (.integer x.1, x.2)

end SolutionTree.Toml
