/-!
Hexadecimal digits.

`digitValue?` reads a digit in either case; `digit` writes one in the case asked
for, and `octet` writes a byte as two digits. Reading a written digit gives its
value back.
-/

namespace SolutionTree.Text.Hex

/-- Which letters stand for the digits above nine. -/
inductive Case where
  | lower
  | upper
  deriving DecidableEq, Repr

/-- The value of a hexadecimal digit in either case. -/
def digitValue? (c : Char) : Option Nat :=
  let n := c.toNat
  if 48 ≤ n ∧ n ≤ 57 then some (n - 48)
  else if 65 ≤ n ∧ n ≤ 70 then some (n - 55)
  else if 97 ≤ n ∧ n ≤ 102 then some (n - 87)
  else none

def digit (style : Case) (n : Nat) : Char :=
  if n < 10 then Char.ofNat (48 + n)
  else match style with
    | .lower => Char.ofNat (87 + n)
    | .upper => Char.ofNat (55 + n)

/-- The two digits of a byte, high digit first. -/
def octet (style : Case) (b : UInt8) : List Char :=
  [digit style (b.toNat / 16), digit style (b.toNat % 16)]

def ofBytes (style : Case) (bs : List UInt8) : String :=
  String.ofList (bs.flatMap (octet style))

/-- Reads pairs of digits, each a byte; none when a digit is wrong or one is left
over. -/
def toBytes? : List Char → Option (List UInt8)
  | [] => some []
  | [_] => none
  | hi :: lo :: rest => do
    let h ← digitValue? hi
    let l ← digitValue? lo
    let bs ← toBytes? rest
    return UInt8.ofNat (16 * h + l) :: bs

/-- A digit is read back in either case. -/
theorem digitValue?_digit (style : Case) {n : Nat} (h : n < 16) :
    digitValue? (digit style n) = some n := by
  have key : ∀ i : Fin 16, digitValue? (digit style i) = some i.val := by
    cases style <;> decide
  exact key ⟨n, h⟩

/-- Bytes are read back from their digits. -/
theorem toBytes?_octets (style : Case) (bs : List UInt8) :
    toBytes? (bs.flatMap (octet style)) = some bs := by
  induction bs with
  | nil => rfl
  | cons b bs ih =>
    have hb := b.toNat_lt
    have hh := digitValue?_digit style (n := b.toNat / 16) (by omega)
    have hl := digitValue?_digit style (n := b.toNat % 16) (by omega)
    have hv : UInt8.ofNat (16 * (b.toNat / 16) + b.toNat % 16) = b := by
      rw [Nat.div_add_mod, UInt8.ofNat_toNat]
    simp [octet, toBytes?, hh, hl, ih, -UInt8.ofNat_add, hv]

end SolutionTree.Text.Hex
