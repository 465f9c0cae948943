/-!
Numerals: decimal and hexadecimal digits of a number, and the number that digits of a radix spell.
-/

namespace RiscvAssembler.Text

/-! ### Writing -/

/-- Decimal digits, after a minus sign for a negative number. -/
def decimal (n : Int) : List Char :=
  if n < 0 then '-' :: Nat.toDigits 10 n.natAbs else Nat.toDigits 10 n.natAbs

/-- The decimal digits as a string. -/
def decimalText (n : Int) : String :=
  String.ofList (decimal n)

/-- Lower-case hexadecimal digits, after `0x` and filled up with zeros to `width` digits. -/
def hexText (width n : Nat) : String :=
  let digits := Nat.toDigits 16 n
  "0x" ++ String.ofList (List.replicate (width - digits.length) '0' ++ digits)

/-! ### Reading -/

/-- The value of one digit, letters counting on from ten, if the radix has it. -/
def digitValue? (radix : Nat) (c : Char) : Option Nat :=
  let value :=
    if c.isDigit then some (c.toNat - '0'.toNat)
    else if c.isLower then some (c.toNat - 'a'.toNat + 10)
    else if c.isUpper then some (c.toNat - 'A'.toNat + 10)
    else none
  value.filter (· < radix)

/-- The number that the digits spell, the most significant first; `value` stands before them. -/
def readDigits? (radix : Nat) : (value : Nat) → List Char → Option Nat
  | value, [] => some value
  | value, c :: rest =>
    match digitValue? radix c with
    | some d => readDigits? radix (radix * value + d) rest
    | none => none

/-- The number that a non-empty list of digits spells. -/
def readNumeral? (radix : Nat) : List Char → Option Nat
  | [] => none
  | digits => readDigits? radix 0 digits

end RiscvAssembler.Text
