import Mt22.Program.OfTree.Value
import Mt22.Proofs.Token.Class
import Mt22.Proofs.Tree.Conforms

/-!
# Values of number tokens

An integer token without its separators is a run of digits, so it has a value, and only the range
of 64 bits can refuse it.  A float token is taken apart into digits, a point and an exponent
(`Literal.parts_of_isFloat`), and always has a value.
-/

namespace Mt22

open Mt22.Tree Mt22.Token Mt22.Number

/-- The number that an integer token denotes. -/
def Tree.denoted (t : Tree) : Nat := digitsValue (Literal.withoutSeparators t.text)

theorem Token.digit_ne {c d : Char} (hc : c.isDigit = true) (hd : d.isDigit = false) : c ≠ d := by
  rintro rfl
  rw [hc] at hd
  cases hd

/-! ### Integers -/

/-- An integer without its separators is digits, one at least. -/
theorem Literal.withoutSeparators_integer {w : List Char} (h : isInteger w = true) :
    withoutSeparators w ≠ [] ∧ (withoutSeparators w).all Char.isDigit = true := by
  cases w with
  | nil => cases h
  | cons c cs =>
    have hc : c.isDigit = true := by
      rw [isInteger] at h
      split at h
      · subst c; rfl
      · exact (Bool.and_eq_true_iff.mp h).1
    have hcs : ∀ d ∈ cs, d.isDigit = true ∨ d = '_' := by
      rw [isInteger] at h
      intro d hd
      split at h
      · rw [List.isEmpty_iff.mp h] at hd; cases hd
      · have := List.all_eq_true.mp (Bool.and_eq_true_iff.mp h).2 d hd
        simpa [isDigitChar] using this
    have hne : (c != '_') = true := bne_iff_ne.mpr (digit_ne hc rfl)
    rw [withoutSeparators, List.filter_cons_of_pos (p := (· != '_')) hne]
    refine ⟨List.cons_ne_nil _ _, ?_⟩
    rw [List.all_cons, hc, Bool.true_and, List.all_eq_true]
    intro d hd
    obtain ⟨hmem, hd'⟩ := List.mem_filter.mp hd
    exact (hcs d hmem).resolve_right (bne_iff_ne.mp hd')

theorem Number.readNatural?_digits {s : List Char} (hne : s ≠ []) (h : s.all Char.isDigit = true) :
    readNatural? s = some (digitsValue s) := by
  rw [readNatural?, if_neg (by simpa using hne), if_pos h]

theorem Number.readInteger?_digits {s : List Char} (hne : s ≠ []) (h : s.all Char.isDigit = true) :
    readInteger? s = some (digitsValue s : Int) := by
  have hn := readNatural?_digits hne h
  unfold readInteger?
  split
  · cases (List.all_cons ▸ h : ('-'.isDigit && _) = true)
  · cases (List.all_cons ▸ h : ('+'.isDigit && _) = true)
  · rw [hn]; rfl

theorem Number.readUnsigned64?_digits {s : List Char} (hne : s ≠ [])
    (h : s.all Char.isDigit = true) :
    readUnsigned64? s = if digitsValue s < unsignedLimit then some (digitsValue s) else none := by
  have hn := readNatural?_digits hne h
  unfold readUnsigned64?
  split
  · cases (List.all_cons ▸ h : ('+'.isDigit && _) = true)
  · rw [hn]
    by_cases hlt : digitsValue s < unsignedLimit
    · rw [Option.filter_some, if_pos hlt, if_pos (by simpa using hlt)]
    · rw [Option.filter_some, if_neg hlt, if_neg (by simpa using hlt)]

theorem Literal.digits_of_is {t : Tree} (h : Is .intLit t) :
    withoutSeparators t.text ≠ [] ∧ (withoutSeparators t.text).all Char.isDigit = true :=
  withoutSeparators_integer (h.allows_text rfl)

/-- An integer token has the value it denotes, if that is below `2 ^ 63`. -/
theorem Literal.integer_eq {t : Tree} (h : Is .intLit t) :
    Literal.integer t = if t.denoted < signedLimit then .ok (t.denoted : Int) else .error (.integerRange t) := by
  obtain ⟨hne, hd⟩ := digits_of_is h
  rw [Literal.integer, readSigned64?, readInteger?_digits hne hd, denoted]
  by_cases hlt : digitsValue (withoutSeparators t.text) < signedLimit
  · have hr : isSigned64 (digitsValue (withoutSeparators t.text) : Int) = true := by
      simp only [isSigned64, Bool.and_eq_true, decide_eq_true_eq]
      omega
    rw [Option.filter_some, if_pos hr, if_pos hlt]
  · have hr : ¬ isSigned64 (digitsValue (withoutSeparators t.text) : Int) = true := by
      simp only [isSigned64, Bool.and_eq_true, decide_eq_true_eq]
      omega
    rw [Option.filter_some, if_neg hr, if_neg hlt]

/-- A dimension has the value it denotes, if that is below `2 ^ 64`. -/
theorem Literal.dimension_eq {t : Tree} (h : Is .intLit t) :
    Literal.dimension t = if t.denoted < unsignedLimit then .ok t.denoted else .error (.dimensionRange t) := by
  obtain ⟨hne, hd⟩ := digits_of_is h
  rw [Literal.dimension, readUnsigned64?_digits hne hd, denoted]
  by_cases hlt : digitsValue (withoutSeparators t.text) < unsignedLimit
  · rw [if_pos hlt, if_pos hlt]
  · rw [if_neg hlt, if_neg hlt]

/-! ### Floats -/

section Floats

variable {s whole part x : List Char}

theorem Number.Decimal.readExponent?_isSome (h : x = [] ∨ IsExponent x) :
    (Decimal.readExponent? x).isSome = true := by
  rcases h with rfl | ⟨e, sign, ds, rfl, he, hsign, hne, hds⟩
  · rfl
  · rw [Decimal.readExponent?, if_pos he]
    rcases hsign with rfl | rfl | rfl
    · rw [List.nil_append, readInteger?_digits hne hds]
      rfl
    · rw [List.singleton_append, readInteger?, readNatural?_digits hne hds]
      rfl
    · rw [List.singleton_append, readInteger?, readNatural?_digits hne hds]
      rfl

/-- An exponent, or none, does not start with a digit or a point. -/
theorem Token.exponent_head (h : x = [] ∨ IsExponent x) :
    x.takeWhile Char.isDigit = [] ∧ x.dropWhile Char.isDigit = x ∧ ∀ r, x ≠ '.' :: r := by
  rcases h with rfl | ⟨e, sign, ds, rfl, rfl | rfl, -⟩
  · exact ⟨rfl, rfl, fun r h => by cases h⟩
  · exact ⟨rfl, rfl, fun r h => by cases h⟩
  · exact ⟨rfl, rfl, fun r h => by cases h⟩

/-- Digits around a point, and an exponent or none, are read as one number. -/
theorem Number.Decimal.read?_point (hw : whole.all Char.isDigit = true)
    (hp : part.all Char.isDigit = true) (hne : whole ≠ [] ∨ part ≠ []) (hx : x = [] ∨ IsExponent x) :
    Decimal.read? (whole ++ '.' :: (part ++ x)) =
      (readExponent? x).map fun e => ⟨digitsValue (whole ++ part), e - part.length⟩ := by
  obtain ⟨ht, hd, -⟩ := exponent_head hx
  have hw' := List.all_eq_true.mp hw
  have hp' := List.all_eq_true.mp hp
  have hpoint : (('.' :: (part ++ x)).takeWhile Char.isDigit) = [] := rfl
  have hpoint' : (('.' :: (part ++ x)).dropWhile Char.isDigit) = '.' :: (part ++ x) := rfl
  have hempty : ¬ (whole.isEmpty && part.isEmpty) = true := by
    rcases hne with h | h <;> simp [h]
  rw [Decimal.read?, List.takeWhile_append_of_pos hw', List.dropWhile_append_of_pos hw', hpoint,
    hpoint', List.append_nil]
  simp only [List.takeWhile_append_of_pos hp', List.dropWhile_append_of_pos hp', ht, hd,
    List.append_nil, if_neg hempty]

/-- Digits without a point, and an exponent or none. -/
theorem Number.Decimal.read?_whole (hw : whole.all Char.isDigit = true) (hne : whole ≠ [])
    (hx : x = [] ∨ IsExponent x) :
    Decimal.read? (whole ++ x) = (readExponent? x).map fun e => ⟨digitsValue whole, e⟩ := by
  obtain ⟨ht, hd, hdot⟩ := exponent_head hx
  have hw' := List.all_eq_true.mp hw
  rw [Decimal.read?, List.takeWhile_append_of_pos hw', List.dropWhile_append_of_pos hw', ht, hd,
    List.append_nil]
  split
  rename_i part rest heq
  split at heq
  · exact absurd rfl (hdot _)
  · cases heq
    rw [if_neg (by simp [hne]), List.append_nil]
    simp only [List.length_nil, Int.ofNat_zero, Int.sub_zero]

/-- A text is taken apart into digits before a point, digits after it, and an exponent or none.  The
point may be missing if no digits follow it. -/
structure Number.Parts (s whole part x : List Char) : Prop where
  whole_digits : whole.all Char.isDigit = true
  part_digits : part.all Char.isDigit = true
  exponent : x = [] ∨ IsExponent x
  text : s = whole ++ '.' :: (part ++ x) ∨ part = [] ∧ s = whole ++ x

/-- The parts of a text are read as one number, if there is a digit before the exponent. -/
theorem Number.Parts.read? (h : Parts s whole part x) (hne : whole ≠ [] ∨ part ≠ []) :
    Decimal.read? s =
      (Decimal.readExponent? x).map fun e => ⟨digitsValue (whole ++ part), e - part.length⟩ := by
  obtain ⟨hw, hp, hx, rfl | ⟨rfl, rfl⟩⟩ := h
  · exact Decimal.read?_point hw hp hne hx
  · rw [Decimal.read?_whole hw (hne.resolve_right (not_not_intro rfl)) hx]
    simp

theorem Number.Parts.read?_isSome (h : Parts s whole part x) (hne : whole ≠ [] ∨ part ≠ []) :
    (Decimal.read? s).isSome = true := by
  rw [h.read? hne, Option.isSome_map]
  exact Decimal.readExponent?_isSome h.exponent

theorem Token.toLower_digit {c : Char} (h : c.isDigit = true) : c.toLower = c := by
  have hle : c.val ≤ '9'.val := by
    simp only [Char.isDigit, Bool.and_eq_true, decide_eq_true_eq] at h
    exact h.2
  have hA : ¬ (c.val ≥ 'A'.val ∧ c.val ≤ 'Z'.val) := by
    rintro ⟨hA, -⟩
    exact absurd (UInt32.le_trans hA hle) (by decide)
  exact dif_neg hA

/-- A text that starts with a digit or a point is read as a decimal, which has no sign. -/
theorem Number.Binary64.read?_eq {c : Char} (hc : c.isDigit = true ∨ c = '.') :
    Binary64.read? (c :: s) = (Decimal.read? (c :: s)).map (Decimal.toBinary64 false) := by
  have hlower : c.toLower = c := by
    rcases hc with hd | rfl
    · exact toLower_digit hd
    · rfl
  have hne : ∀ d : Char, d.isDigit = false → d ≠ '.' → c ≠ d := by
    rintro d hd hp rfl
    rcases hc with hc | hc
    · rw [hd] at hc; cases hc
    · exact hp hc
  have hi : c ≠ 'i' := hne 'i' rfl (by decide)
  have hn : c ≠ 'n' := hne 'n' rfl (by decide)
  have hmag : Binary64.readMagnitude? false (c :: s) =
      (Decimal.read? (c :: s)).map (Decimal.toBinary64 false) := by
    have hinf : ¬ ((c :: s).map Char.toLower = "inf".toList ∨
        (c :: s).map Char.toLower = "infinity".toList) := by
      rw [List.map_cons, hlower]
      rintro (h | h) <;> exact hi (List.cons.inj h).1
    have hnan : ¬ (c :: s).map Char.toLower = "nan".toList := by
      rw [List.map_cons, hlower]
      exact fun h => hn (List.cons.inj h).1
    rw [Binary64.readMagnitude?, if_neg hinf, if_neg hnan]
  unfold Binary64.read?
  split
  · rename_i heq
    exact absurd (List.cons.inj heq).1 (hne '-' rfl (by decide))
  · rename_i heq
    exact absurd (List.cons.inj heq).1 (hne '+' rfl (by decide))
  · exact hmag

/-- Nothing but digits and separators is dropped. -/
theorem Literal.withoutSeparators_eq {w : List Char} (h : ∀ c ∈ w, c ≠ '_') :
    withoutSeparators w = w :=
  List.filter_eq_self.mpr fun c hc => bne_iff_ne.mpr (h c hc)

theorem Token.fraction_no_separator {w : List Char} (h : IsFraction w) : ∀ c ∈ w, c ≠ '_' := by
  obtain ⟨ds, rfl, hds⟩ := h
  intro c hc
  rcases List.mem_cons.mp hc with rfl | hc
  · decide
  · exact digit_ne (List.all_eq_true.mp hds c hc) rfl

theorem Token.exponent_no_separator {w : List Char} (h : w = [] ∨ IsExponent w) :
    ∀ c ∈ w, c ≠ '_' := by
  rcases h with rfl | ⟨e, sign, ds, rfl, he, hsign, -, hds⟩
  · intro c hc; cases hc
  · intro c hc
    rcases List.mem_cons.mp hc with rfl | hc
    · rcases he with rfl | rfl <;> decide
    · rcases List.mem_append.mp hc with hc | hc
      · rcases hsign with rfl | rfl | rfl
        · cases hc
        · rw [List.mem_singleton.mp hc]; decide
        · rw [List.mem_singleton.mp hc]; decide
      · exact digit_ne (List.all_eq_true.mp hds c hc) rfl

theorem Literal.withLeadingZero_digit {c : Char} {s : List Char} (hc : c.isDigit = true) :
    withLeadingZero (c :: s) = c :: s := by
  unfold withLeadingZero
  split
  · rename_i heq
    rw [(List.cons.inj heq).1] at hc
    cases hc
  · rfl

/-- A float without its separators is taken apart.  It starts with a digit, or with a point, and then
there is an exponent. -/
theorem Literal.parts_of_isFloat {w : List Char} (h : IsFloat w) :
    ∃ whole part x, Parts (withoutSeparators w) whole part x ∧
      (whole ≠ [] ∨ withoutSeparators w = '.' :: (part ++ x) ∧ IsExponent x) := by
  have happend : ∀ u v : List Char,
      withoutSeparators (u ++ v) = withoutSeparators u ++ withoutSeparators v :=
    List.filter_append
  rcases h with ⟨i, f, x, rfl, hi, hf, hx⟩ | ⟨i, x, rfl, hi, hx⟩ | ⟨f, x, rfl, hf, hx⟩
  · obtain ⟨hne, hdig⟩ := withoutSeparators_integer hi
    rw [happend, happend, withoutSeparators_eq (fraction_no_separator hf),
      withoutSeparators_eq (exponent_no_separator hx), List.append_assoc]
    obtain ⟨ds, rfl, hds⟩ := hf
    exact ⟨_, ds, x, ⟨hdig, hds, hx, .inl rfl⟩, .inl hne⟩
  · obtain ⟨hne, hdig⟩ := withoutSeparators_integer hi
    rw [happend, withoutSeparators_eq (exponent_no_separator (.inr hx))]
    exact ⟨_, [], x, ⟨hdig, rfl, .inr hx, .inr ⟨rfl, rfl⟩⟩, .inl hne⟩
  · rw [happend, withoutSeparators_eq (fraction_no_separator hf),
      withoutSeparators_eq (exponent_no_separator (.inr hx))]
    obtain ⟨ds, rfl, hds⟩ := hf
    exact ⟨[], ds, x, ⟨rfl, hds, .inr hx, .inl rfl⟩, .inr ⟨rfl, hx⟩⟩

/-- A float is given a digit where it has none before its exponent, and is left as it is elsewhere. -/
theorem Literal.parts_withLeadingZero (h : Parts s whole part x)
    (hstart : whole ≠ [] ∨ s = '.' :: (part ++ x) ∧ IsExponent x) :
    ∃ v, (v = whole ∨ whole = [] ∧ v = ['0']) ∧ Parts (withLeadingZero s) v part x ∧
      (v ≠ [] ∨ part ≠ []) := by
  cases whole with
  | cons c cs =>
    have hc : c.isDigit = true := (Bool.and_eq_true_iff.mp (List.all_cons ▸ h.whole_digits)).1
    have heq : withLeadingZero s = s := by
      rcases h.text with rfl | ⟨-, rfl⟩
      · exact withLeadingZero_digit hc
      · exact withLeadingZero_digit hc
    exact ⟨_, .inl rfl, heq.symm ▸ h, .inl (List.cons_ne_nil c cs)⟩
  | nil =>
    obtain ⟨rfl, hx⟩ := hstart.resolve_left (not_not_intro rfl)
    cases part with
    | nil =>
      have hx' := hx
      obtain ⟨e, sign, es, rfl, he, -⟩ := hx'
      refine ⟨['0'], .inr ⟨rfl, rfl⟩, ⟨rfl, rfl, .inr hx, .inl ?_⟩, .inl (List.cons_ne_nil _ _)⟩
      rw [List.nil_append, withLeadingZero, if_pos he]
      rfl
    | cons d ds =>
      have hd : d.isDigit = true := (Bool.and_eq_true_iff.mp (List.all_cons ▸ h.part_digits)).1
      have hne : ¬ (d = 'e' ∨ d = 'E') := by
        rintro (rfl | rfl) <;> cases hd
      refine ⟨[], .inl rfl, ⟨rfl, h.part_digits, .inr hx, .inl ?_⟩, .inr (List.cons_ne_nil d ds)⟩
      rw [List.cons_append, withLeadingZero, if_neg hne]
      rfl

/-- The text that is read of a float token starts with a digit or a point, and is read as a decimal. -/
theorem Literal.float_text {w : List Char} (h : IsFloat w) :
    ∃ c s, withLeadingZero (withoutSeparators w) = c :: s ∧ (c.isDigit = true ∨ c = '.') ∧
      (Decimal.read? (c :: s)).isSome = true := by
  obtain ⟨whole, part, x, hparts, hstart⟩ := parts_of_isFloat h
  obtain ⟨v, -, hread, hne⟩ := parts_withLeadingZero hparts hstart
  have hhead : ∃ c s, withLeadingZero (withoutSeparators w) = c :: s ∧
      (c.isDigit = true ∨ c = '.') := by
    cases v with
    | nil => exact ⟨'.', _, hread.text.resolve_right fun h => hne.elim (absurd rfl) (absurd h.1), .inr rfl⟩
    | cons c cs =>
      have hc : c.isDigit = true := (Bool.and_eq_true_iff.mp (List.all_cons ▸ hread.whole_digits)).1
      rcases hread.text with htext | ⟨-, htext⟩
      · exact ⟨c, _, htext, .inl hc⟩
      · exact ⟨c, _, htext, .inl hc⟩
  obtain ⟨c, s, heq, hc⟩ := hhead
  exact ⟨c, s, heq, hc, heq ▸ hread.read?_isSome hne⟩

/-- A float token has the value of the decimal that is read of it, without a sign. -/
theorem Literal.float_of_read? {t : Tree} {d : Decimal} (h : Is .floatLit t)
    (hd : Decimal.read? (withLeadingZero (withoutSeparators t.text)) = some d) :
    Literal.float t = .ok (Decimal.toBinary64 false d) := by
  have hw : IsFloat t.text := h.allows_text rfl
  obtain ⟨c, s, hcs, hc, -⟩ := float_text hw
  rw [Literal.float, hcs, Binary64.read?_eq hc, ← hcs, hd]
  rfl

theorem Literal.float_eq {t : Tree} (h : Is .floatLit t) :
    ∃ d, Literal.float t = .ok (Decimal.toBinary64 false d) := by
  obtain ⟨c, s, hcs, -, hsome⟩ := float_text (h.allows_text rfl)
  obtain ⟨d, hd⟩ := Option.isSome_iff_exists.mp hsome
  exact ⟨d, float_of_read? h (hcs ▸ hd)⟩

theorem Literal.float_ok {t : Tree} (h : Is .floatLit t) : ∃ v, Literal.float t = .ok v := by
  obtain ⟨d, hd⟩ := float_eq h
  exact ⟨_, hd⟩

end Floats

end Mt22
