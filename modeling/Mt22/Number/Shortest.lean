import Mt22.Number.Binary64

/-!
# Shortest decimals

A finite number is written with the fewest decimal digits that read back as it, and of the
decimals with that many digits with the nearest one.  `Interval` holds the ratios that round to
a code: half a unit to either side, with less room below a power of two, the ends included when
the code is even.  For one digit, two digits and so on, the two neighbours of the number on that
grid are tried.
-/

namespace Mt22.Number

/-- Which of two decimals at the same distance is written. -/
inductive Tie where
  | up
  | even
deriving DecidableEq

/-- The ratios that round to one code, in units of a quarter of the least positive magnitude. -/
structure Interval where
  lower : Nat
  value : Nat
  upper : Nat
  closed : Bool

/-- The interval of a code. -/
def Interval.ofCode (code : Nat) : Interval :=
  let m := Binary64.significand code
  let unit := Nat.pow 2 (Binary64.scale code)
  let below := if m = Nat.pow 2 52 ∧ 1 < unit then 1 else 2
  ⟨(4 * m - below) * unit, 4 * m * unit, (4 * m + 2) * unit, code % 2 = 0⟩

/-- Quarters of the least positive magnitude in one. -/
def quarters : Nat := Nat.pow 2 1076

/-- A decimal as digits `d₀ d₁ …`, the last not zero, of the number `d₀.d₁… * 10 ^ exponent`. -/
structure Digits where
  digits : List Char
  exponent : Int
deriving DecidableEq

/-- The digits of `n * 10 ^ exponent`. -/
def Digits.ofNat (n : Nat) (exponent : Int) : Digits :=
  let ds := Nat.toDigits 10 n
  ⟨(ds.reverse.dropWhile (· = '0')).reverse, exponent + (ds.length - 1 : Nat)⟩

/-- The exponent of the first decimal digit of a positive magnitude. -/
def decimalOrder (value : Nat) : Int :=
  (digitCount (value * Nat.pow 10 350 / quarters) : Int) - 351

/-- The ratio `num / den` of quarters rounds to the code. -/
def Interval.contains (i : Interval) (num den : Nat) : Bool :=
  if i.closed then i.lower * den ≤ num && num ≤ i.upper * den
  else i.lower * den < num && num < i.upper * den

/-- A number halfway between `floor` and `floor + 1` is written as the latter. -/
def Tie.roundsUp (tie : Tie) (floor : Nat) : Bool :=
  match tie with
  | .up => true
  | .even => floor % 2 = 1

/-- The multiples of `10 ^ exponent` next to the value, as factors, the nearer one first. -/
def Interval.neighbours (i : Interval) (tie : Tie) (exponent : Int) : List Nat :=
  let num := i.value * Nat.pow 10 (-exponent).toNat
  let den := quarters * Nat.pow 10 exponent.toNat
  let floor := num / den
  let twice := 2 * (num % den)
  if den < twice || (twice = den && tie.roundsUp floor) then [floor + 1, floor]
  else [floor, floor + 1]

/-- The number nearest to the value among the multiples of `10 ^ exponent` that round to the
code, if there is one. -/
def Interval.nearest? (i : Interval) (tie : Tie) (exponent : Int) : Option Nat :=
  (i.neighbours tie exponent).find? fun n =>
    i.contains (n * (quarters * Nat.pow 10 exponent.toNat)) (Nat.pow 10 (-exponent).toNat)

/-- The shortest digits of the magnitude with a positive code. -/
def shortest (tie : Tie) (code : Nat) : Digits :=
  let i := Interval.ofCode code
  let order := decimalOrder i.value
  let exponents := (List.range 17).map fun k : Nat => order - k
  let found := exponents.findSome? fun e => (i.nearest? tie e).map (Digits.ofNat · e)
  found.getD (Digits.ofNat (i.value / quarters) 0)

end Mt22.Number
