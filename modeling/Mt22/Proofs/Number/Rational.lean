import Mathlib.Data.Nat.Digits.Defs
import Mt22.Proofs.Number.Layout
import Mt22.Proofs.Number.Spelling
import Mt22.Proofs.Token.Reading

/-!
# The rational number of a text

What a number is by its places, told without reading it: a digit counts by how many digits follow it
(`placeValue`), and a text with a point and an exponent is a rational number (`rationalOf`), whatever
is missing of it.

* `Parts.rationalOf_eq`: the number of a text that is taken apart.
* `Parts.read?_value`: it is what is read of the text, if there is a digit before the exponent.
-/

namespace Mt22.Number

open Token Literal

variable {s t whole part x ds : List Char}

/-! ### Digits and signs -/

/-- The number of a run of digits by their places.  An empty run counts as zero. -/
def placeValue (ds : List Char) : ℕ := Nat.ofDigits 10 (ds.reverse.map digitValue)

theorem digitsValue_eq_placeValue (ds : List Char) : digitsValue ds = placeValue ds := by
  rw [placeValue, Nat.ofDigits_eq_foldr, List.foldr_map, List.foldr_reverse, digitsValue]
  simp only [Nat.cast_id, Nat.add_comm]

/-- The number of digits after a sign or none. -/
def signedValue : List Char → ℤ
  | '-' :: ds => -placeValue ds
  | '+' :: ds => placeValue ds
  | ds => placeValue ds

theorem signedValue_digits (h : ds.all Char.isDigit = true) : signedValue ds = placeValue ds := by
  unfold signedValue
  split
  · cases (List.all_cons ▸ h : ('-'.isDigit && _) = true)
  · cases (List.all_cons ▸ h : ('+'.isDigit && _) = true)
  · rfl

theorem Decimal.readExponent?_eq (h : x = [] ∨ IsExponent x) :
    Decimal.readExponent? x = some (signedValue (x.drop 1)) := by
  rcases h with rfl | ⟨e, sign, ds, rfl, he, hsign, hne, hds⟩
  · rfl
  · rw [Decimal.readExponent?, if_pos he, List.drop_one, List.tail_cons]
    rcases hsign with rfl | rfl | rfl
    · rw [List.nil_append, readInteger?_digits hne hds, signedValue_digits hds,
        digitsValue_eq_placeValue]
    · rw [List.singleton_append, readInteger?, readNatural?_digits hne hds, signedValue,
        digitsValue_eq_placeValue]
      rfl
    · rw [List.singleton_append, readInteger?, readNatural?_digits hne hds, signedValue,
        digitsValue_eq_placeValue]
      rfl

/-! ### Texts -/

/-- A character that starts an exponent. -/
def isExponentMark (c : Char) : Bool := c = 'e' || c = 'E'

/-- The rational number of a text.  Separators are passed over, and what stands before the exponent is
digits around a point. -/
def rationalOf (t : List Char) : ℚ :=
  let s := t.filter (· != '_')
  let mantissa := s.takeWhile (!isExponentMark ·)
  let exponent := (s.dropWhile (!isExponentMark ·)).drop 1
  let whole := mantissa.takeWhile (· != '.')
  let part := (mantissa.dropWhile (· != '.')).drop 1
  (placeValue whole + placeValue part / 10 ^ part.length) * 10 ^ signedValue exponent

theorem rationalOf_withoutSeparators (t : List Char) :
    rationalOf (withoutSeparators t) = rationalOf t := by
  rw [rationalOf, withoutSeparators, List.filter_filter]
  simp only [Bool.and_self]
  rfl

/-- Digits are neither a point nor the start of an exponent. -/
theorem all_of_digits (h : ds.all Char.isDigit = true) :
    ds.all (· != '.') = true ∧ ds.all (!isExponentMark ·) = true := by
  have hall := List.all_eq_true.mp h
  constructor
  · exact List.all_eq_true.mpr fun c hc => bne_iff_ne.mpr (digit_ne (hall c hc) rfl)
  · refine List.all_eq_true.mpr fun c hc => ?_
    simp [isExponentMark, digit_ne (hall c hc) (d := 'e') rfl, digit_ne (hall c hc) (d := 'E') rfl]

namespace Parts

/-- No separator is left in a text that is taken apart. -/
theorem withoutSeparators_eq (h : Parts s whole part x) : withoutSeparators s = s := by
  refine Literal.withoutSeparators_eq fun c hc => ?_
  have hdigit : ∀ {ds : List Char}, ds.all Char.isDigit = true → c ∈ ds → c ≠ '_' :=
    fun hds hc => digit_ne (List.all_eq_true.mp hds c hc) rfl
  have hx := exponent_no_separator h.exponent c
  rcases h.text with rfl | ⟨-, rfl⟩
  · simp only [List.mem_append, List.mem_cons] at hc
    rcases hc with hc | rfl | hc | hc
    · exact hdigit h.whole_digits hc
    · decide
    · exact hdigit h.part_digits hc
    · exact hx hc
  · rcases List.mem_append.mp hc with hc | hc
    · exact hdigit h.whole_digits hc
    · exact hx hc

/-- **The number of a text that is taken apart.** -/
theorem rationalOf_eq (h : Parts s whole part x) : rationalOf s =
    (placeValue whole + placeValue part / 10 ^ part.length) * 10 ^ signedValue (x.drop 1) := by
  have hs : s.filter (· != '_') = s := h.withoutSeparators_eq
  obtain ⟨hwpoint, hwmark⟩ := all_of_digits h.whole_digits
  obtain ⟨-, hpmark⟩ := all_of_digits h.part_digits
  have hx : Stops (!isExponentMark ·) x := by
    rcases h.exponent with rfl | ⟨e, sign, ds, rfl, rfl | rfl, -⟩
    · exact stops_nil _
    · exact stops_cons rfl
    · exact stops_cons rfl
  -- the mantissa ends where the exponent starts, and its digits before the point end at the point
  obtain ⟨m, rfl, hm, hwhole, hpart⟩ : ∃ m, s = m ++ x ∧ m.all (!isExponentMark ·) = true ∧
      m.takeWhile (· != '.') = whole ∧ (m.dropWhile (· != '.')).drop 1 = part := by
    rcases h.text with rfl | ⟨rfl, rfl⟩
    · have hsplit := takeWhile_append_of_stops (s := '.' :: part) hwpoint (stops_cons rfl)
      refine ⟨whole ++ '.' :: part, by simp, ?_, hsplit.1, by rw [hsplit.2]; rfl⟩
      rw [List.all_append, List.all_cons, hwmark, hpmark]
      rfl
    · have hsplit := takeWhile_append_of_stops hwpoint (stops_nil _)
      rw [List.append_nil] at hsplit
      exact ⟨whole, rfl, hwmark, hsplit.1, by rw [hsplit.2]; rfl⟩
  have hmantissa := takeWhile_append_of_stops hm hx
  simp only [rationalOf, hs, hmantissa, hwhole, hpart]

/-- What is read of a text is its number, if there is a digit before the exponent. -/
theorem read?_value (h : Parts s whole part x) (hne : whole ≠ [] ∨ part ≠ []) :
    ∃ d, Decimal.read? s = some d ∧ d.value = rationalOf s := by
  refine ⟨_, by rw [h.read? hne, Decimal.readExponent?_eq h.exponent]; rfl, ?_⟩
  have hten : (10 : ℚ) ^ part.length ≠ 0 := by positivity
  rw [h.rationalOf_eq, Decimal.value, digitsValue_append, digitsValue_eq_placeValue,
    digitsValue_eq_placeValue, zpow_sub₀ (by norm_num), zpow_natCast]
  push_cast
  field_simp

end Parts

end Mt22.Number

namespace Mt22.Literal

open Mt22.Number Mt22.Token

/-- **The text that is read of a float** is a decimal and denotes what the float denotes, and so does
what is read of it. -/
theorem normalized_float {w : List Char} (h : IsFloat w) :
    IsDecimal (withLeadingZero (withoutSeparators w)) ∧
      rationalOf (withLeadingZero (withoutSeparators w)) = rationalOf w ∧
      ∃ d, Decimal.read? (withLeadingZero (withoutSeparators w)) = some d ∧ d.value = rationalOf w := by
  obtain ⟨whole, part, x, hparts, hstart⟩ := parts_of_isFloat h
  obtain ⟨v, hv, hread, hne⟩ := parts_withLeadingZero hparts hstart
  have hplace : placeValue v = placeValue whole := by
    rcases hv with rfl | ⟨rfl, rfl⟩
    · rfl
    · rfl
  have hsame : rationalOf (withLeadingZero (withoutSeparators w)) = rationalOf w := by
    rw [← rationalOf_withoutSeparators w, hparts.rationalOf_eq, hread.rationalOf_eq, hplace]
  obtain ⟨d, hd, hvalue⟩ := hread.read?_value hne
  refine ⟨Decimal.read?_isSome_iff.mp (hread.read?_isSome hne), hsame, d, hd, hvalue.trans hsame⟩

end Mt22.Literal
