/-!
# Numerals

Numbers written in decimal digits, with or without a sign, and the two ranges of 64-bit numbers.
Digits are the ten ASCII digits; any other character makes the text no numeral.
-/

namespace Mt22.Number

/-- The value of a digit. -/
def digitValue (c : Char) : Nat := c.toNat - '0'.toNat

/-- The number that a run of digits denotes; no digits denote zero. -/
def digitsValue (ds : List Char) : Nat :=
  ds.foldl (fun n c => 10 * n + digitValue c) 0

/-- One digit or more, and nothing else. -/
def readNatural? (s : List Char) : Option Nat :=
  if s.isEmpty then none else if s.all Char.isDigit then some (digitsValue s) else none

/-- An optional sign and a natural number. -/
def readInteger? : List Char → Option Int
  | '-' :: s => (readNatural? s).map fun n => -(n : Int)
  | '+' :: s => (readNatural? s).map fun n => (n : Int)
  | s => (readNatural? s).map fun n => (n : Int)

/-- The number `2 ^ 63`. -/
def signedLimit : Nat := 9223372036854775808

/-- The number `2 ^ 64`. -/
def unsignedLimit : Nat := 18446744073709551616

/-- The range of a signed number of 64 bits. -/
def isSigned64 (n : Int) : Bool := -signedLimit ≤ n && n < signedLimit

/-- An integer in the signed 64-bit range. -/
def readSigned64? (s : List Char) : Option Int :=
  (readInteger? s).filter isSigned64

/-- A natural number below `2 ^ 64`.  A plus sign may stand before it, a minus sign may not. -/
def readUnsigned64? : List Char → Option Nat
  | '+' :: s => (readNatural? s).filter (· < unsignedLimit)
  | s => (readNatural? s).filter (· < unsignedLimit)

end Mt22.Number
