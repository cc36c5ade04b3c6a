import Mt22.Number.Layout
import Mt22.Proofs.Number.Shortest
import Mt22.Proofs.Token.Value

/-!
# Written numbers

A text denotes a number if it is digits with a point among them, an exponent after them, or both
(`Decimal.Denotes`); reading such a text gives that number (`Decimal.Denotes.read?`).  Every layout
writes digits as a text that denotes their number, whether in positions or with an exponent
(`Layout.denotes_digits`).

So two finite numbers with one text have digits of one value, and since the digits of a code name no
other code, they are one number (`Layout.write_finite_inj`).
-/

namespace Mt22.Number

open Token

/-! ### Numerals -/

theorem toList_toString_natCast (n : Nat) : (toString (n : Int)).toList = Nat.toDigits 10 n := by
  rw [Int.toString_eq_repr]
  change (Nat.repr n).toList = _
  rw [Nat.repr_eq_ofList_toDigits, String.toList_ofList]

theorem toList_toString_negSucc (n : Nat) :
    (toString (Int.negSucc n)).toList = '-' :: Nat.toDigits 10 (n + 1) := by
  rw [Int.toString_eq_repr]
  change ("-" ++ Nat.repr (n + 1)).toList = _
  rw [String.toList_append, Nat.repr_eq_ofList_toDigits, String.toList_ofList,
    String.toList_ofList]
  rfl

theorem all_isDigit_toDigits (n : Nat) : (Nat.toDigits 10 n).all Char.isDigit = true :=
  List.all_eq_true.mpr fun _ => Nat.isDigit_of_mem_toDigits (by decide) (by decide)

theorem readNatural?_toDigits (n : Nat) : readNatural? (Nat.toDigits 10 n) = some n := by
  rw [readNatural?_digits Nat.toDigits_ne_nil (all_isDigit_toDigits n), digitsValue_toDigits]

/-- An integer is read from its numeral. -/
theorem readInteger?_toString (v : Int) : readInteger? (toString v).toList = some v := by
  cases v with
  | ofNat n =>
    rw [Int.ofNat_eq_natCast, toList_toString_natCast,
      readInteger?_digits Nat.toDigits_ne_nil (all_isDigit_toDigits n), digitsValue_toDigits]
  | negSucc n =>
    rw [toList_toString_negSucc, readInteger?, readNatural?_toDigits]
    rfl

theorem toString_int_inj {v w : Int} (h : toString v = toString w) : v = w := by
  have hread := readInteger?_toString v
  rw [h, readInteger?_toString w] at hread
  exact (Option.some.inj hread).symm

/-- A numeral has no characters but digits and a minus sign. -/
theorem mem_toString_int {v : Int} {c : Char} (hc : c ∈ (toString v).toList) :
    c.isDigit = true ∨ c = '-' := by
  cases v with
  | ofNat n =>
    rw [Int.ofNat_eq_natCast, toList_toString_natCast] at hc
    exact .inl (List.all_eq_true.mp (all_isDigit_toDigits n) c hc)
  | negSucc n =>
    rw [toList_toString_negSucc] at hc
    rcases List.mem_cons.mp hc with rfl | hc
    · exact .inr rfl
    · exact .inl (List.all_eq_true.mp (all_isDigit_toDigits _) c hc)

/-- A mark and a numeral, with a plus sign only before what is not negative, are an exponent. -/
theorem exponent_toString (e : Int) (plus : Bool) (hplus : plus = true → 0 ≤ e) :
    IsExponent ('e' :: ((if plus then "+" else "").toList ++ (toString e).toList)) ∧
      Decimal.readExponent? ('e' :: ((if plus then "+" else "").toList ++ (toString e).toList)) =
        some e := by
  have hdigits := all_isDigit_toDigits
  cases e with
  | ofNat n =>
    rw [Int.ofNat_eq_natCast]
    cases plus with
    | false =>
      exact ⟨⟨'e', [], _, rfl, .inl rfl, .inl rfl,
        toList_toString_natCast n ▸ ⟨Nat.toDigits_ne_nil, hdigits n⟩⟩, readInteger?_toString n⟩
    | true =>
      rw [toList_toString_natCast]
      refine ⟨⟨'e', ['+'], _, rfl, .inl rfl, .inr (.inl rfl), Nat.toDigits_ne_nil, hdigits n⟩, ?_⟩
      change readInteger? ('+' :: Nat.toDigits 10 n) = _
      rw [readInteger?, readNatural?_toDigits]
      rfl
  | negSucc n =>
    cases plus with
    | false =>
      exact ⟨⟨'e', ['-'], Nat.toDigits 10 (n + 1), by rw [toList_toString_negSucc]; rfl, .inl rfl,
        .inr (.inr rfl), Nat.toDigits_ne_nil, hdigits (n + 1)⟩, readInteger?_toString _⟩
    | true => exact absurd (hplus rfl) (by omega)

/-! ### Decimals -/

namespace Decimal

/-- The number that a decimal stands for. -/
def value (d : Decimal) : ℚ := d.digits * 10 ^ d.exponent

/-- The text denotes a number: it is digits with a point among them, an exponent after them, or
both. -/
inductive Denotes : List Char → ℚ → Prop
  | point {whole part x : List Char} {e : Int} (hne : whole ≠ [])
      (hw : whole.all Char.isDigit = true) (hp : part.all Char.isDigit = true)
      (hx : x = [] ∨ IsExponent x) (he : readExponent? x = some e) :
      Denotes (whole ++ '.' :: (part ++ x)) (value ⟨digitsValue (whole ++ part), e - part.length⟩)
  | whole {whole x : List Char} {e : Int} (hne : whole ≠ []) (hw : whole.all Char.isDigit = true)
      (hx : IsExponent x) (he : readExponent? x = some e) :
      Denotes (whole ++ x) (value ⟨digitsValue whole, e⟩)

variable {t : List Char} {q : ℚ}

theorem Denotes.read? (h : Denotes t q) : ∃ d, Decimal.read? t = some d ∧ d.value = q := by
  cases h with
  | point hne hw hp hx he => exact ⟨_, by rw [read?_point hw hp (.inl hne) hx, he]; rfl, rfl⟩
  | whole hne hw hx he => exact ⟨_, by rw [read?_whole hw hne (.inr hx), he]; rfl, rfl⟩

/-- A text denotes one number at most. -/
theorem Denotes.unique {r : ℚ} (hq : Denotes t q) (hr : Denotes t r) : q = r := by
  obtain ⟨d, hd, rfl⟩ := hq.read?
  obtain ⟨d', hd', rfl⟩ := hr.read?
  rw [Option.some.inj (hd.symm.trans hd')]

/-- The characters of numbers. -/
def isNumberChar (c : Char) : Bool := c.isDigit || ['.', 'e', 'E', '+', '-'].contains c

theorem isNumberChar_of_isDigit {c : Char} (h : c.isDigit = true) : isNumberChar c = true := by
  rw [isNumberChar, h, Bool.true_or]

theorem all_isNumberChar_of_digits {ds : List Char} (h : ds.all Char.isDigit = true) :
    ds.all isNumberChar = true :=
  List.all_eq_true.mpr fun c hc => isNumberChar_of_isDigit (List.all_eq_true.mp h c hc)

theorem all_isNumberChar_of_isExponent {x : List Char} (h : IsExponent x) :
    x.all isNumberChar = true := by
  obtain ⟨e, sign, ds, rfl, he, hsign, -, hds⟩ := h
  have hmark : isNumberChar e = true := by rcases he with rfl | rfl <;> rfl
  have hs : sign.all isNumberChar = true := by rcases hsign with rfl | rfl | rfl <;> rfl
  rw [List.all_cons, List.all_append, hmark, hs, all_isNumberChar_of_digits hds]
  rfl

theorem Denotes.all_isNumberChar (h : Denotes t q) : t.all isNumberChar = true := by
  cases h with
  | @point whole part x e hne hw hp hx he =>
    have hx : x.all isNumberChar = true := by
      rcases hx with rfl | hx
      · rfl
      · exact all_isNumberChar_of_isExponent hx
    rw [List.all_append, List.all_cons, List.all_append, all_isNumberChar_of_digits hw,
      all_isNumberChar_of_digits hp, hx]
    rfl
  | whole hne hw hx he =>
    rw [List.all_append, all_isNumberChar_of_digits hw, all_isNumberChar_of_isExponent hx]
    rfl

/-- The point or the exponent tells such a number from an integer. -/
theorem Denotes.exists_mark (h : Denotes t q) : ∃ c ∈ t, ¬ (c.isDigit = true ∨ c = '-') := by
  cases h with
  | point hne hw hp hx he => exact ⟨'.', by simp, by decide⟩
  | whole hne hw hx he =>
    obtain ⟨e, sign, ds, rfl, he, -⟩ := hx
    exact ⟨e, by simp, by rcases he with rfl | rfl <;> decide⟩

theorem Denotes.head (h : Denotes t q) : ∃ c s, t = c :: s ∧ c.isDigit = true := by
  have hcons : ∀ {whole x : List Char}, whole ≠ [] → whole.all Char.isDigit = true →
      ∃ c s, whole ++ x = c :: s ∧ c.isDigit = true := by
    intro whole x hne hw
    obtain ⟨c, s, rfl⟩ := List.exists_cons_of_ne_nil hne
    exact ⟨c, s ++ x, rfl, List.all_eq_true.mp hw c (by simp)⟩
  cases h with
  | point hne hw hp hx he => exact hcons hne hw
  | whole hne hw hx he => exact hcons hne hw

end Decimal

/-! ### Layouts -/

/-- Zeros around digits do not change the number, if the exponent is moved for those after them. -/
theorem Digits.value_padded (d : Digits) (j k : Nat) {ds : List Char} {e : Int}
    (hds : ds = List.replicate j '0' ++ (d.digits ++ List.replicate k '0'))
    (he : e + k = d.exponent + 1 - d.digits.length) :
    Decimal.value ⟨digitsValue ds, e⟩ = d.value := by
  have hvalue : digitsValue ds = 10 ^ k * digitsValue d.digits := by
    rw [hds, digitsValue_append, digitsValue_append, digitsValue_zeros, digitsValue_zeros,
      List.length_replicate, Nat.mul_zero, Nat.zero_add, Nat.add_zero]
  rw [Decimal.value, Digits.value, ← he, hvalue, zpow_add₀ (by norm_num), zpow_natCast]
  push_cast
  ring

theorem Digits.Proper.all_zeros {d : Digits} (hd : d.Proper) (j k : Nat) :
    (List.replicate j '0' ++ (d.digits ++ List.replicate k '0')).all Char.isDigit = true := by
  have hzeros : ∀ n, (List.replicate n '0').all Char.isDigit = true := fun n =>
    List.all_eq_true.mpr fun c hc => by rw [List.eq_of_mem_replicate hc]; rfl
  rw [List.all_append, List.all_append, hzeros, hzeros, hd.all_isDigit]
  rfl

/-- Digits around a point are those of `d`, with zeros before and after them. -/
theorem Digits.denotes_point {d : Digits} (hd : d.Proper) (j k : Nat) {whole part x : List Char}
    {e : Int} (hne : whole ≠ []) (hx : x = [] ∨ IsExponent x)
    (he : Decimal.readExponent? x = some e)
    (hds : whole ++ part = List.replicate j '0' ++ (d.digits ++ List.replicate k '0'))
    (hexp : e - part.length + k = d.exponent + 1 - d.digits.length) :
    Decimal.Denotes (whole ++ '.' :: (part ++ x)) d.value := by
  have hall := hd.all_zeros j k
  rw [← hds, List.all_append, Bool.and_eq_true] at hall
  rw [← d.value_padded j k hds hexp]
  exact .point hne hall.1 hall.2 hx he

theorem Digits.denotes_positional {d : Digits} (hd : d.Proper) :
    Decimal.Denotes d.positional.toList d.value := by
  rw [positional]
  split
  · next hneg =>
    have h : Decimal.Denotes
        (['0'] ++ '.' :: (List.replicate (-d.exponent - 1).toNat '0' ++ d.digits ++ [])) d.value :=
      Digits.denotes_point hd ((-d.exponent - 1).toNat + 1) 0 (List.cons_ne_nil _ _) (.inl rfl) rfl
        (by simp [List.replicate_succ]) (by simp; omega)
    simpa using h
  · next hneg =>
    dsimp only
    generalize hwhole : d.exponent.toNat + 1 = whole
    generalize hpad : whole - d.digits.length = pad
    generalize hpadded : d.digits ++ List.replicate pad '0' = padded
    have hlength : padded.length = d.digits.length + pad := by rw [← hpadded]; simp
    have htake : padded.take whole ≠ [] := by
      rw [← List.length_pos_iff, List.length_take]
      omega
    split
    · next hpart =>
      -- all digits are before the point
      have hle : padded.length ≤ whole := by simpa using hpart
      have h : Decimal.Denotes (padded.take whole ++ '.' :: (['0'] ++ [])) d.value :=
        Digits.denotes_point hd 0 (pad + 1) htake (.inl rfl) rfl
          (by rw [List.take_of_length_le hle, ← hpadded]; simp [List.replicate_succ'])
          (by simp; omega)
      simpa using h
    · next hpart =>
      -- some digits are after the point, and none was added
      have hlt : whole < padded.length := by simpa using hpart
      obtain rfl : pad = 0 := by omega
      have h : Decimal.Denotes (padded.take whole ++ '.' :: (padded.drop whole ++ [])) d.value :=
        Digits.denotes_point hd 0 0 htake (.inl rfl) rfl
          (by rw [List.take_append_drop, ← hpadded]; simp) (by simp; omega)
      simpa using h

theorem Digits.denotes_scientific {d : Digits} (hd : d.Proper) (signed : Bool) :
    Decimal.Denotes (d.scientific signed).toList d.value := by
  obtain ⟨c, part, hdigits⟩ := List.exists_cons_of_ne_nil hd.digits_ne_nil
  obtain ⟨hx, he⟩ := exponent_toString d.exponent (signed && decide (0 ≤ d.exponent))
    (fun h => of_decide_eq_true (Bool.and_eq_true_iff.mp h).2)
  cases part with
  | nil =>
    have h := Decimal.Denotes.whole hd.digits_ne_nil hd.all_isDigit hx he
    rw [d.value_padded 0 0 (by simp) (by simp [hdigits])] at h
    simpa [scientific, hdigits] using h
  | cons c' part =>
    have h := Digits.denotes_point hd 0 0 (List.cons_ne_nil c []) (.inr hx) he
      (show [c] ++ (c' :: part) = _ by simp [hdigits]) (by simp [hdigits])
    simpa [scientific, hdigits] using h

/-- Zero has a digit of its own, which no search finds. -/
theorem zero_holds : Digits.Proper ⟨['0'], 0⟩ ∧
    (Interval.ofCode 0).Holds (Digits.value ⟨['0'], 0⟩ * quarters) := by
  refine ⟨⟨by decide, by decide⟩, ?_⟩
  have hvalue : Digits.value ⟨['0'], 0⟩ * quarters = 0 := by
    rw [Digits.value, show digitsValue ['0'] = 0 from rfl, Nat.cast_zero, zero_mul, zero_mul]
  rw [hvalue, Interval.Holds, if_pos (by decide)]
  exact ⟨by norm_num [Interval.lower_eq, Binary64.significand], Nat.cast_nonneg _⟩

namespace Layout

variable {l : Layout}

/-- **A layout writes digits as a text that denotes their number.** -/
theorem denotes_digits (l : Layout) {d : Digits} (hd : d.Proper) :
    Decimal.Denotes (l.digits d).toList d.value := by
  rw [digits]
  split
  · exact d.denotes_positional hd
  · exact d.denotes_scientific hd l.signedExponent

/-- The text of a finite number is a sign, or none, and a text that denotes a ratio in the interval
of its code. -/
theorem write_finite (l : Layout) (negative : Bool) (code : Fin codeLimit) :
    ∃ t q, (l.write (.finite negative code)).toList = (if negative then ['-'] else []) ++ t ∧
      Decimal.Denotes t q ∧ (Interval.ofCode code).Holds (q * quarters) := by
  have htext : ∀ d : Digits, ((if negative then "-" else "") ++ l.digits d).toList =
      (if negative then ['-'] else []) ++ (l.digits d).toList := by
    intro d
    rw [String.toList_append]
    cases negative <;> rfl
  simp only [write, htext]
  by_cases hzero : code.val = 0
  · rw [if_pos hzero]
    obtain ⟨hproper, hholds⟩ := zero_holds
    exact ⟨_, _, rfl, denotes_digits l hproper, hzero ▸ hholds⟩
  · rw [if_neg hzero]
    obtain ⟨hproper, hholds⟩ := shortest_holds (Nat.pos_of_ne_zero hzero) l.tie
    exact ⟨_, _, rfl, denotes_digits l hproper, hholds⟩

/-- **No two finite numbers are written alike.** -/
theorem write_finite_inj {a b : Bool} {c d : Fin codeLimit}
    (h : l.write (.finite a c) = l.write (.finite b d)) : Binary64.finite a c = .finite b d := by
  obtain ⟨t, q, ht, hq, hc⟩ := write_finite l a c
  obtain ⟨u, r, hu, hr, hd⟩ := write_finite l b d
  have hsigns : (if a then ['-'] else []) ++ t = (if b then ['-'] else []) ++ u := by
    rw [← ht, ← hu, h]
  obtain ⟨x, t', rfl, hx⟩ := hq.head
  obtain ⟨y, u', rfl, hy⟩ := hr.head
  -- a digit is no sign
  have hsign : a = b := by
    cases a <;> cases b <;> simp at hsigns ⊢
    · rw [hsigns.1] at hx; cases hx
    · rw [← hsigns.1] at hy; cases hy
  subst hsign
  rw [List.append_cancel_left hsigns] at hq
  rw [hq.unique hr] at hc
  rw [Fin.ext (hc.unique hd)]

end Layout

/-! ### Numbers without a sign -/

/-- The number has no sign, and is a number. -/
def Binary64.IsUnsigned : Binary64 → Prop
  | finite negative _ | infinite negative => negative = false
  | nan => False

theorem Binary64.isUnsigned_ofCode (code : Nat) : (ofCode false code).IsUnsigned := by
  unfold ofCode
  split <;> rfl

theorem Decimal.isUnsigned_toBinary64 (d : Decimal) : (d.toBinary64 false).IsUnsigned := by
  unfold toBinary64
  dsimp only
  split
  · exact Binary64.isUnsigned_ofCode 0
  · split
    · rfl
    · exact Binary64.isUnsigned_ofCode _

namespace Layout

variable {l : Layout}

/-- The text of a finite number without a sign denotes it. -/
theorem denotes_write (l : Layout) (code : Fin codeLimit) :
    ∃ q, Decimal.Denotes (l.write (.finite false code)).toList q := by
  obtain ⟨t, q, ht, hq, -⟩ := write_finite l false code
  rw [ht]
  exact ⟨q, hq⟩

/-- **No two numbers without a sign are written alike**, if no number looks like infinity. -/
theorem write_inj_of_isUnsigned {a b : Binary64}
    (hinf : ∀ c s, l.infinity.toList = c :: s → c.isDigit = false)
    (ha : a.IsUnsigned) (hb : b.IsUnsigned) (h : l.write a = l.write b) : a = b := by
  have hne : ∀ code, l.write (.finite false code) ≠ l.write (.infinite false) := by
    intro code heq
    obtain ⟨q, hq⟩ := denotes_write l code
    obtain ⟨c, s, hc, hdigit⟩ := hq.head
    rw [heq] at hc
    rw [hinf c s hc] at hdigit
    cases hdigit
  cases a with
  | finite _ c =>
    obtain rfl := ha
    cases b with
    | finite _ d => exact write_finite_inj h
    | infinite _ =>
      obtain rfl := hb
      exact absurd h (hne c)
    | nan => cases hb
  | infinite _ =>
    obtain rfl := ha
    cases b with
    | finite _ d =>
      obtain rfl := hb
      exact absurd h.symm (hne d)
    | infinite _ =>
      obtain rfl := hb
      rfl
    | nan => cases hb
  | nan => cases ha

end Layout

end Mt22.Number
