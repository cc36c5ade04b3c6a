import Mt22.Number.Shortest

/-!
# Layouts of numbers

The shortest digits of a number can be written in their positions or with an exponent.  A
`Layout` says which exponents are written out in positions, how an exponent is spelt, and what
stands for the values that are not finite.
-/

namespace Mt22.Number


/-- How a number is laid out: which exponents are written out in positions, whether an exponent
above zero carries a sign, which way a tie goes, and the words for what is not finite. -/
structure Layout where
  leastPositional : Int
  greatestPositional : Int
  signedExponent : Bool
  tie : Tie
  infinity : String
  minusInfinity : String
  notANumber : String

/-- Digits in their positions, with one digit at least on either side of the point. -/
def Digits.positional (d : Digits) : String :=
  if d.exponent < 0 then
    "0." ++ String.ofList (List.replicate (-d.exponent - 1).toNat '0' ++ d.digits)
  else
    let whole := d.exponent.toNat + 1
    let padded := d.digits ++ List.replicate (whole - d.digits.length) '0'
    let part := padded.drop whole
    String.ofList (padded.take whole) ++ "." ++ if part.isEmpty then "0" else String.ofList part

/-- Digits with the point after the first of them, and an exponent. -/
def Digits.scientific (d : Digits) (signedExponent : Bool) : String :=
  let part := d.digits.drop 1
  let mantissa :=
    String.ofList (d.digits.take 1) ++ if part.isEmpty then "" else "." ++ String.ofList part
  let sign := if signedExponent && 0 ≤ d.exponent then "+" else ""
  mantissa ++ "e" ++ sign ++ toString d.exponent

/-- Digits in a layout. -/
def Layout.digits (l : Layout) (d : Digits) : String :=
  if l.leastPositional ≤ d.exponent && d.exponent ≤ l.greatestPositional then d.positional
  else d.scientific l.signedExponent

/-- A number in a layout. -/
def Layout.write (l : Layout) : Binary64 → String
  | .finite negative code =>
    let magnitude := if code.val = 0 then ⟨['0'], 0⟩ else shortest l.tie code
    (if negative then "-" else "") ++ l.digits magnitude
  | .infinite true => l.minusInfinity
  | .infinite false => l.infinity
  | .nan => l.notANumber

end Mt22.Number
