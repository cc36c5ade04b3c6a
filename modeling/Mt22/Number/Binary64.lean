import Mt22.Number.Numeral

/-!
# Binary floating point numbers of 64 bits

A finite number is a sign and a **code**, the rank of its magnitude among the representable
ones: code `0` is zero, code `1` is `2 ^ -1074`, and each code is the next larger magnitude.
Below `2 ^ 53` the code counts units of `2 ^ -1074`; above it, every `2 ^ 52` codes the unit
doubles.  So `significand` and `scale` recover a magnitude as `significand * 2 ^ scale` units,
and rounding up past a power of two is only an addition of one.

* `ofRatio` is the magnitude nearest to a ratio, a tie going to the even code.
* `read?` reads decimal text.
-/

namespace Mt22.Number

/-- The code after that of the largest finite magnitude. -/
def codeLimit : Nat := 2047 * Nat.pow 2 52

/-- A binary floating point number of 64 bits.  All that is not a number is one value. -/
inductive Binary64 where
  | finite (negative : Bool) (code : Fin codeLimit)
  | infinite (negative : Bool)
  | nan
deriving DecidableEq

namespace Binary64

/-- The number with a sign and the code of a magnitude; a code beyond the largest is infinity. -/
def ofCode (negative : Bool) (code : Nat) : Binary64 :=
  if h : code < codeLimit then finite negative ⟨code, h⟩ else infinite negative

/-- How many units of `2 ^ scale` a magnitude has. -/
def significand (code : Nat) : Nat :=
  if code < Nat.pow 2 52 then code else Nat.pow 2 52 + code % Nat.pow 2 52

/-- The unit of a magnitude is `2 ^ scale` times the least positive one. -/
def scale (code : Nat) : Nat := code / Nat.pow 2 52 - 1

/-- The natural number nearest to `num / den`, a tie going to the even one. -/
def roundHalfEven (num den : Nat) : Nat :=
  let q := num / den
  let r := num % den
  if 2 * r < den then q else if den < 2 * r then q + 1 else q + q % 2

/-- The code of the magnitude nearest to `num / den`. -/
def codeOfRatio (num den : Nat) : Nat :=
  let units := num * Nat.pow 2 1074
  let shift := (units / den).log2 + 1 - 53
  shift * Nat.pow 2 52 + roundHalfEven units (den * Nat.pow 2 shift)

/-- The number nearest to `num / den` with a sign. -/
def ofRatio (negative : Bool) (num den : Nat) : Binary64 :=
  ofCode negative (codeOfRatio num den)

end Binary64

/-! ## Decimal text -/

/-- The number of decimal digits of a positive number. -/
def digitCount (n : Nat) : Nat := (Nat.toDigits 10 n).length

/-- The number `digits * 10 ^ exponent`, not yet rounded. -/
structure Decimal where
  digits : Nat
  exponent : Int
deriving DecidableEq

namespace Decimal

/-- The exponent part of a decimal: nothing, or a mark, an optional sign and digits. -/
def readExponent? : List Char → Option Int
  | [] => some 0
  | c :: s => if c = 'e' ∨ c = 'E' then readInteger? s else none

/-- Digits with at most one point among them, one digit at least, and an optional exponent. -/
def read? (s : List Char) : Option Decimal :=
  let whole := s.takeWhile Char.isDigit
  let afterWhole := s.dropWhile Char.isDigit
  let (part, rest) :=
    match afterWhole with
    | '.' :: r => (r.takeWhile Char.isDigit, r.dropWhile Char.isDigit)
    | r => ([], r)
  if whole.isEmpty && part.isEmpty then none
  else (readExponent? rest).map fun e => ⟨digitsValue (whole ++ part), e - part.length⟩

/-- The nearest binary number.  Decimals far outside the range of magnitudes are settled by
their order of magnitude alone, so the powers of ten that are computed stay small. -/
def toBinary64 (negative : Bool) (d : Decimal) : Binary64 :=
  let order := digitCount d.digits + d.exponent
  if d.digits = 0 ∨ order < -330 then .ofCode negative 0
  else if 330 < order then .infinite negative
  else .ofRatio negative (d.digits * Nat.pow 10 d.exponent.toNat) (Nat.pow 10 (-d.exponent).toNat)

end Decimal

namespace Binary64

/-- A number without its sign: a name of a value that is not finite, in letters of either case,
or a decimal. -/
def readMagnitude? (negative : Bool) (s : List Char) : Option Binary64 :=
  let word := s.map Char.toLower
  if word = "inf".toList ∨ word = "infinity".toList then some (infinite negative)
  else if word = "nan".toList then some nan
  else (Decimal.read? s).map (Decimal.toBinary64 negative)

/-- A number in decimal text, with an optional sign. -/
def read? : List Char → Option Binary64
  | '-' :: s => readMagnitude? true s
  | '+' :: s => readMagnitude? false s
  | s => readMagnitude? false s

end Binary64

end Mt22.Number
