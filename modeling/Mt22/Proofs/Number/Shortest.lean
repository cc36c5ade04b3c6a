import Mathlib.Algebra.Order.Field.Power
import Mathlib.Tactic.FieldSimp
import Mathlib.Tactic.Linarith
import Mathlib.Tactic.Positivity
import Mathlib.Tactic.Ring
import Mt22.Number.Shortest

/-!
# Shortest decimals name their numbers

The intervals of the codes are laid end to end: the upper end of a code is the lower end of the
next one (`Interval.lower_succ`), and of two codes that meet only the even one has their common
end.  So no ratio lies in the intervals of two codes (`Interval.Holds.unique`).

The shortest digits of a code denote a number in its interval (`shortest_holds`).  For this the
search must not come out empty, and indeed seventeen digits are always enough: they lie on a grid
whose step is at most a part in `10 ^ 16` of the number, so that the grid point next to it is still
in the interval (`Interval.nearest?_isSome`).
-/

namespace Mt22.Number

/-! ### Codes -/

namespace Binary64

theorem significand_lt (c : Nat) : significand c < 2 ^ 53 := by
  simp only [significand, Nat.pow_eq]
  split <;> omega

/-- Within a run of codes with one unit, the next code has one unit more. -/
theorem significand_succ {c : Nat} (h : (c + 1) % 2 ^ 52 ≠ 0) :
    significand (c + 1) = significand c + 1 ∧ significand (c + 1) ≠ 2 ^ 52 ∧
      scale (c + 1) = scale c := by
  simp only [significand, scale, Nat.pow_eq]
  refine ⟨?_, ?_, ?_⟩
  · split <;> split <;> omega
  · split <;> omega
  · omega

/-- Where the run ends, the significand falls back to the least one, and the unit doubles unless
the run was the first. -/
theorem significand_succ_of_dvd {c : Nat} (h : (c + 1) % 2 ^ 52 = 0) :
    significand (c + 1) = 2 ^ 52 ∧
      (significand c = 2 ^ 52 - 1 ∧ scale c = 0 ∧ scale (c + 1) = 0 ∨
        significand c = 2 ^ 53 - 1 ∧ scale (c + 1) = scale c + 1) := by
  simp only [significand, scale, Nat.pow_eq]
  refine ⟨?_, ?_⟩
  · split <;> omega
  · by_cases hc : c < 2 ^ 52
    · left
      rw [if_pos hc]
      omega
    · right
      rw [if_neg hc]
      omega

theorem significand_pos {c : Nat} (h : 0 < c) : 0 < significand c := by
  simp only [significand, Nat.pow_eq]
  split <;> omega

end Binary64

open Binary64

/-! ### Intervals -/

namespace Interval

/-- The ratio lies in the interval. -/
def Holds (i : Interval) (q : ℚ) : Prop :=
  if i.closed then i.lower ≤ q ∧ q ≤ i.upper else i.lower < q ∧ q < i.upper

theorem contains_iff {i : Interval} {num den : Nat} (hden : 0 < den) :
    i.contains num den = true ↔ i.Holds (num / den) := by
  have hpos : (0 : ℚ) < den := Nat.cast_pos.mpr hden
  rw [contains, Holds]
  split
  · rw [Bool.and_eq_true, decide_eq_true_eq, decide_eq_true_eq, le_div_iff₀ hpos, div_le_iff₀ hpos]
    norm_cast
  · rw [Bool.and_eq_true, decide_eq_true_eq, decide_eq_true_eq, lt_div_iff₀ hpos, div_lt_iff₀ hpos]
    norm_cast

theorem Holds.lower_le {i : Interval} {q : ℚ} (h : i.Holds q) : i.lower ≤ q := by
  rw [Holds] at h
  split at h
  · exact h.1
  · exact h.1.le

theorem Holds.le_upper {i : Interval} {q : ℚ} (h : i.Holds q) : q ≤ i.upper := by
  rw [Holds] at h
  split at h
  · exact h.2
  · exact h.2.le

/-- Inside its ends an interval holds everything. -/
theorem holds_of_lt {i : Interval} {q : ℚ} (hl : i.lower < q) (hu : q < i.upper) : i.Holds q := by
  rw [Holds]
  split
  · exact ⟨hl.le, hu.le⟩
  · exact ⟨hl, hu⟩

/-- An end of an interval belongs to it only if the code is even. -/
theorem Holds.even {c : Nat} {q : ℚ} (h : (ofCode c).Holds q)
    (hq : q = (ofCode c).lower ∨ q = (ofCode c).upper) : c % 2 = 0 := by
  by_contra hodd
  have hopen : (ofCode c).closed = false := decide_eq_false hodd
  rw [Holds, hopen, if_neg (by simp)] at h
  rcases hq with hq | hq
  · exact h.1.ne' hq
  · exact h.2.ne hq

theorem lower_eq (c : Nat) : (ofCode c).lower =
    (4 * significand c - if significand c = 2 ^ 52 ∧ 0 < scale c then 1 else 2) * 2 ^ scale c := by
  have hunit : 1 < 2 ^ scale c ↔ 0 < scale c := by
    rw [Nat.one_lt_two_pow_iff, Nat.pos_iff_ne_zero]
  simp only [ofCode, Nat.pow_eq, hunit]

theorem value_eq (c : Nat) : (ofCode c).value = 4 * significand c * 2 ^ scale c := rfl

theorem upper_eq (c : Nat) : (ofCode c).upper = (4 * significand c + 2) * 2 ^ scale c := rfl

/-- **Intervals are laid end to end.** -/
theorem lower_succ (c : Nat) : (ofCode (c + 1)).lower = (ofCode c).upper := by
  rw [lower_eq, upper_eq]
  by_cases h : (c + 1) % 2 ^ 52 = 0
  · obtain ⟨hm, ⟨hc, hs, hs'⟩ | ⟨hc, hs⟩⟩ := significand_succ_of_dvd h
    · rw [hm, hc, hs, hs']
      rfl
    · rw [hm, hc, hs, if_pos ⟨rfl, Nat.succ_pos _⟩, Nat.pow_succ]
      omega
  · obtain ⟨hm, hne, hs⟩ := significand_succ h
    rw [if_neg fun hand => hne hand.1, hm, hs]
    rfl

theorem lower_lt_upper (c : Nat) : (ofCode c).lower < (ofCode c).upper := by
  rw [lower_eq, upper_eq]
  refine Nat.mul_lt_mul_of_pos_right ?_ (Nat.two_pow_pos _)
  omega

theorem upper_le_lower {c d : Nat} (h : c < d) : (ofCode c).upper ≤ (ofCode d).lower := by
  induction d, h using Nat.le_induction with
  | base => exact (lower_succ c).ge
  | succ d _ ih =>
    rw [lower_succ d]
    exact ih.trans (lower_lt_upper d).le

theorem lower_injective {c d : Nat} (h : (ofCode c).lower = (ofCode d).lower) : c = d := by
  by_contra hne
  rcases Nat.lt_or_gt_of_ne hne with hlt | hlt
  · exact (((lower_lt_upper c).trans_le (upper_le_lower hlt)).ne h)
  · exact (((lower_lt_upper d).trans_le (upper_le_lower hlt)).ne h.symm)

/-- **No ratio lies in the intervals of two codes.** -/
theorem Holds.unique {c d : Nat} {q : ℚ} (hc : (ofCode c).Holds q) (hd : (ofCode d).Holds q) :
    c = d := by
  -- of two codes in order, the ratio would be the end at which they meet
  have hlt : ∀ {c d : Nat}, (ofCode c).Holds q → (ofCode d).Holds q → ¬ c < d := by
    intro c d hc hd h
    have hends : ((ofCode c).upper : ℚ) ≤ (ofCode d).lower := Nat.cast_le.mpr (upper_le_lower h)
    have hq := le_antisymm hc.le_upper (hends.trans hd.lower_le)
    have hq' := le_antisymm (hc.le_upper.trans hends) hd.lower_le
    have hmeet : (ofCode (c + 1)).lower = (ofCode d).lower := by
      rw [lower_succ]
      exact_mod_cast hq.symm.trans hq'
    have hsucc := lower_injective hmeet
    have := hc.even (.inr hq)
    have := hd.even (.inl hq')
    omega
  exact Nat.le_antisymm (Nat.le_of_not_lt (hlt hd hc)) (Nat.le_of_not_lt (hlt hc hd))

/-! ### Seventeen digits are enough -/

/-- From the number to either end of its interval there is more than a part in `2 * 10 ^ 16`. -/
theorem margins {c : Nat} (hc : 0 < c) : ∃ a b, (ofCode c).lower + a = (ofCode c).value ∧
    (ofCode c).value + b = (ofCode c).upper ∧ (ofCode c).value < 2 * 10 ^ 16 * a ∧
    (ofCode c).value < 2 * 10 ^ 16 * b := by
  have hpos : 0 < 2 ^ scale c := Nat.two_pow_pos _
  have hlt := significand_lt c
  have hm := significand_pos hc
  rw [lower_eq, value_eq, upper_eq]
  split
  · next h =>
    refine ⟨2 ^ scale c, 2 * 2 ^ scale c, ?_, ?_, ?_, ?_⟩
    · rw [h.1]
      omega
    · ring
    · rw [h.1]
      omega
    · rw [h.1]
      omega
  · refine ⟨2 * 2 ^ scale c, 2 * 2 ^ scale c, ?_, ?_, ?_, ?_⟩
    · rw [← Nat.add_mul, Nat.sub_add_cancel (by omega)]
    · ring
    · nlinarith
    · nlinarith

/-- What is near enough to the number is in its interval. -/
theorem holds_of_near {c : Nat} {q : ℚ} (hc : 0 < c)
    (h : |q - (ofCode c).value| * (2 * 10 ^ 16) ≤ (ofCode c).value) : (ofCode c).Holds q := by
  obtain ⟨a, b, ha, hb, hva, hvb⟩ := margins hc
  have ha : ((ofCode c).lower : ℚ) + a = (ofCode c).value := by exact_mod_cast ha
  have hb : ((ofCode c).value : ℚ) + b = (ofCode c).upper := by exact_mod_cast hb
  have hva : ((ofCode c).value : ℚ) < 2 * 10 ^ 16 * a := by exact_mod_cast hva
  have hvb : ((ofCode c).value : ℚ) < 2 * 10 ^ 16 * b := by exact_mod_cast hvb
  have hdist : |q - (ofCode c).value| < a ∧ |q - (ofCode c).value| < b := by
    constructor <;> linarith
  have hleft := abs_lt.mp hdist.1
  have hright := abs_lt.mp hdist.2
  exact holds_of_lt (by linarith) (by linarith)

theorem four_le_value {c : Nat} (hc : 0 < c) : 4 ≤ (ofCode c).value := by
  have hm := significand_pos hc
  rw [value_eq]
  exact Nat.le_mul_of_pos_right 4 hm |>.trans (Nat.le_mul_of_pos_right _ (Nat.two_pow_pos _))

end Interval

theorem quarters_pos : 0 < quarters := by decide +kernel

theorem zpow_eq_div (e : Int) : (10 : ℚ) ^ e = 10 ^ e.toNat / 10 ^ (-e).toNat := by
  obtain ⟨n, rfl | rfl⟩ := e.eq_nat_or_neg
  · simp
  · simp

theorem pow_digitCount_le {n : Nat} (hn : 0 < n) : 10 ^ (digitCount n - 1) ≤ n := by
  rcases Nat.eq_zero_or_pos (digitCount n - 1) with h | h
  · rw [h]
    exact hn
  · by_contra hlt
    have := (Nat.length_toDigits_le_iff (by decide) h).mpr (Nat.lt_of_not_le hlt)
    rw [← digitCount] at this
    omega

/-- The first digit of a number is not to the left of its order. -/
theorem pow_decimalOrder_le {v : Nat} (hv : 4 ≤ v) : (10 : ℚ) ^ decimalOrder v * quarters ≤ v := by
  have hn : 0 < v * Nat.pow 10 350 / quarters := by
    refine Nat.div_pos ?_ quarters_pos
    have hbig : quarters ≤ 4 * Nat.pow 10 350 := by decide +kernel
    generalize Nat.pow 10 350 = t at hbig ⊢
    exact hbig.trans (Nat.mul_le_mul_right t hv)
  have hdigits := pow_digitCount_le hn
  have hpos : 0 < digitCount (v * Nat.pow 10 350 / quarters) :=
    List.length_pos_iff.mpr Nat.toDigits_ne_nil
  rw [decimalOrder]
  generalize hk : digitCount (v * Nat.pow 10 350 / quarters) = k at hdigits hpos
  have hle : 10 ^ (k - 1) * quarters ≤ v * Nat.pow 10 350 :=
    (Nat.mul_le_mul_right _ hdigits).trans (Nat.div_mul_le_self _ _)
  have hexp : ((k : Int) - 351) = ((k - 1 : Nat) : Int) - ((350 : Nat) : Int) := by omega
  have hle : (10 : ℚ) ^ (k - 1) * quarters ≤ v * 10 ^ 350 := by
    generalize 350 = t at hle ⊢
    exact_mod_cast hle
  rw [hexp, zpow_sub₀ (by norm_num), zpow_natCast, zpow_natCast, div_mul_eq_mul_div,
    div_le_iff₀ (by positivity)]
  exact hle

namespace Interval

/-- One of the two neighbours is at most half a step away. -/
theorem exists_near (i : Interval) (tie : Tie) (e : Int) : ∃ n ∈ i.neighbours tie e,
    |(n : ℚ) * (quarters * 10 ^ e) - i.value| * 2 ≤ quarters * 10 ^ e := by
  have hpow : (0 : ℚ) < 10 ^ (-e).toNat := by positivity
  have hquarters := quarters_pos
  simp only [neighbours]
  generalize quarters = q at hquarters ⊢
  -- both sides in units of the smallest step: there the division with remainder decides
  have hscale : ∀ n : Nat, (|(n : ℚ) * (q * 10 ^ e) - i.value| * 2 ≤ q * 10 ^ e ↔
      |(n : ℚ) * (q * Nat.pow 10 e.toNat : Nat) - (i.value * Nat.pow 10 (-e).toNat : Nat)| * 2 ≤
        (q * Nat.pow 10 e.toNat : Nat)) := by
    intro n
    have hstep : (n : ℚ) * (q * 10 ^ e) - i.value =
        ((n : ℚ) * (q * 10 ^ e.toNat) - i.value * 10 ^ (-e).toNat) / 10 ^ (-e).toNat := by
      rw [zpow_eq_div]
      field_simp
    rw [hstep, zpow_eq_div, abs_div, abs_of_pos hpow, div_mul_eq_mul_div, mul_div_assoc',
      div_le_div_iff_of_pos_right hpow]
    push_cast [Nat.pow_eq]
    rfl
  simp only [hscale]
  have hden : 0 < q * Nat.pow 10 e.toNat := Nat.mul_pos hquarters (Nat.pow_pos (by decide))
  generalize i.value * Nat.pow 10 (-e).toNat = num
  generalize q * Nat.pow 10 e.toNat = den at hden
  have hdiv : (num : ℚ) = den * (num / den : Nat) + (num % den : Nat) := by
    exact_mod_cast (Nat.div_add_mod num den).symm
  have hlt : ((num % den : Nat) : ℚ) < den := Nat.cast_lt.mpr (Nat.mod_lt num hden)
  rcases Nat.le_total (2 * (num % den)) den with hle | hle
  · refine ⟨num / den, by split <;> simp, ?_⟩
    have hle : 2 * ((num % den : Nat) : ℚ) ≤ den := by exact_mod_cast hle
    have hnonneg : (0 : ℚ) ≤ (num % den : Nat) := Nat.cast_nonneg _
    rw [hdiv, abs_of_nonpos (by linarith)]
    linarith
  · refine ⟨num / den + 1, by split <;> simp, ?_⟩
    have hle : (den : ℚ) ≤ 2 * ((num % den : Nat) : ℚ) := by exact_mod_cast hle
    rw [hdiv, Nat.cast_succ, abs_of_nonneg (by linarith)]
    linarith

theorem contains_grid (i : Interval) (e : Int) (n : Nat) :
    i.contains (n * (quarters * Nat.pow 10 e.toNat)) (Nat.pow 10 (-e).toNat) = true ↔
      i.Holds (n * (quarters * 10 ^ e)) := by
  have hden : 0 < Nat.pow 10 (-e).toNat := Nat.pow_pos (by decide)
  rw [contains_iff hden, zpow_eq_div]
  push_cast [Nat.pow_eq]
  rw [mul_div_assoc', mul_div_assoc']

/-- **Seventeen digits are enough**: on that grid there is a number in the interval. -/
theorem nearest?_isSome {c : Nat} (hc : 0 < c) (tie : Tie) :
    ((ofCode c).nearest? tie (decimalOrder (ofCode c).value - 16)).isSome := by
  obtain ⟨n, hn, hnear⟩ := (ofCode c).exists_near tie (decimalOrder (ofCode c).value - 16)
  have horder := pow_decimalOrder_le (four_le_value hc)
  have hstep : (quarters : ℚ) * 10 ^ (decimalOrder (ofCode c).value - 16) * 10 ^ 16 ≤
      (ofCode c).value := by
    have hpow : (10 : ℚ) ^ (decimalOrder (ofCode c).value - 16) * 10 ^ 16 =
        10 ^ decimalOrder (ofCode c).value := by
      rw [← zpow_natCast (10 : ℚ) 16, ← zpow_add₀ (by norm_num)]
      exact congrArg _ (Int.sub_add_cancel _ _)
    rw [mul_assoc, hpow, mul_comm]
    exact horder
  rw [nearest?, List.find?_isSome]
  refine ⟨n, hn, (contains_grid _ _ _).mpr (holds_of_near hc ?_)⟩
  linarith

theorem nearest?_holds {i : Interval} {tie : Tie} {e : Int} {n : Nat}
    (h : i.nearest? tie e = some n) : i.Holds (n * (quarters * 10 ^ e)) := by
  rw [nearest?] at h
  have hfound := List.find?_some h
  rwa [contains_grid] at hfound

end Interval

/-! ### Digits -/

theorem digitsValue_append (ds es : List Char) :
    digitsValue (ds ++ es) = 10 ^ es.length * digitsValue ds + digitsValue es :=
  (Nat.ofDigitChars_append 0).trans Nat.ofDigitChars_eq_ofDigitChars_zero

theorem digitsValue_zeros (n : Nat) : digitsValue (List.replicate n '0') = 0 :=
  Nat.ofDigitChars_replicate_zero

theorem digitsValue_toDigits (n : Nat) : digitsValue (Nat.toDigits 10 n) = n :=
  Nat.ofDigitChars_toDigits (by decide) (by decide)

namespace Digits

/-- The number that digits with an exponent denote. -/
def value (d : Digits) : ℚ := digitsValue d.digits * 10 ^ (d.exponent + 1 - d.digits.length)

/-- The digits of a number are those of its numeral without the zeros at the end. -/
theorem ofNat_zeros (n : Nat) (e : Int) :
    ∃ k, Nat.toDigits 10 n = (ofNat n e).digits ++ List.replicate k '0' := by
  have hzeros : ∀ c ∈ (Nat.toDigits 10 n).reverse.takeWhile (· = '0'), c = '0' := fun c hc =>
    of_decide_eq_true (List.all_eq_true.mp List.all_takeWhile c hc)
  have hsplit := congrArg List.reverse
    (List.takeWhile_append_dropWhile (p := (· = '0')) (l := (Nat.toDigits 10 n).reverse))
  rw [List.reverse_append, List.reverse_reverse, List.eq_replicate_iff.mpr ⟨rfl, hzeros⟩,
    List.reverse_replicate] at hsplit
  exact ⟨_, hsplit.symm⟩

/-- Zeros at the end of the digits only move the exponent. -/
theorem value_ofNat (n : Nat) (e : Int) : (ofNat n e).value = n * 10 ^ e := by
  obtain ⟨k, hk⟩ := ofNat_zeros n e
  have hn : 10 ^ k * digitsValue (ofNat n e).digits = n := by
    have := digitsValue_toDigits n
    rwa [hk, digitsValue_append, digitsValue_zeros, List.length_replicate, Nat.add_zero] at this
  have hlength := congrArg List.length hk
  rw [List.length_append, List.length_replicate] at hlength
  have hpos := List.length_pos_iff.mpr (Nat.toDigits_ne_nil (b := 10) (n := n))
  have hexp : (ofNat n e).exponent + 1 - (ofNat n e).digits.length = e + k := by
    simp only [ofNat] at hlength ⊢
    omega
  have hn : (10 : ℚ) ^ k * digitsValue (ofNat n e).digits = n := by exact_mod_cast hn
  rw [value, hexp, zpow_add₀ (by norm_num), zpow_natCast, ← hn]
  ring

end Digits

/-! ### The shortest digits -/

/-- Digits that can be written: one at least, and no other characters. -/
structure Digits.Proper (d : Digits) : Prop where
  digits_ne_nil : d.digits ≠ []
  all_isDigit : d.digits.all Char.isDigit = true

theorem Digits.proper_ofNat {n : Nat} (hn : 0 < n) (e : Int) : (ofNat n e).Proper where
  digits_ne_nil := by
    intro hnil
    obtain ⟨k, hk⟩ := ofNat_zeros n e
    have := digitsValue_toDigits n
    rw [hk, hnil, List.nil_append, digitsValue_zeros] at this
    omega
  all_isDigit := by
    obtain ⟨k, hk⟩ := ofNat_zeros n e
    refine List.all_eq_true.mpr fun c hc => ?_
    have hmem : c ∈ Nat.toDigits 10 n := hk ▸ List.mem_append_left _ hc
    exact Nat.isDigit_of_mem_toDigits (by decide) (by decide) hmem

theorem Interval.lower_pos {c : Nat} (hc : 0 < c) : 0 < (ofCode c).lower := by
  have hm := significand_pos hc
  rw [lower_eq]
  refine Nat.mul_pos ?_ (Nat.two_pow_pos _)
  split <;> omega

/-- **The shortest digits of a code denote a number that rounds to it.** -/
theorem shortest_holds {c : Nat} (hc : 0 < c) (tie : Tie) : (shortest tie c).Proper ∧
    (Interval.ofCode c).Holds ((shortest tie c).value * quarters) := by
  obtain ⟨n, e, hnearest, hshortest⟩ : ∃ n e, (Interval.ofCode c).nearest? tie e = some n ∧
      shortest tie c = Digits.ofNat n e := by
    simp only [shortest]
    generalize hfound : List.findSome? _ _ = found
    cases found with
    | none =>
      have hnone := List.findSome?_eq_none_iff.mp hfound
        (decimalOrder (Interval.ofCode c).value - 16)
        (List.mem_map.mpr ⟨16, by decide, rfl⟩)
      have hsome := Interval.nearest?_isSome hc tie
      rw [Option.map_eq_none_iff.mp hnone] at hsome
      contradiction
    | some d =>
      obtain ⟨e, -, he⟩ := List.exists_of_findSome?_eq_some hfound
      obtain ⟨n, hn, rfl⟩ := Option.map_eq_some_iff.mp he
      exact ⟨n, e, hn, rfl⟩
  have hholds := Interval.nearest?_holds hnearest
  have hpos : 0 < n := by
    refine Nat.pos_of_ne_zero fun hzero => ?_
    have := hholds.lower_le
    have : (0 : ℚ) < (Interval.ofCode c).lower := Nat.cast_pos.mpr (Interval.lower_pos hc)
    rw [hzero, Nat.cast_zero, zero_mul] at *
    linarith
  rw [hshortest]
  refine ⟨Digits.proper_ofNat hpos e, ?_⟩
  rw [Digits.value_ofNat, mul_assoc, mul_comm ((10 : ℚ) ^ e)]
  exact hholds

end Mt22.Number
