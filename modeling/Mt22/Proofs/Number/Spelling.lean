import Mt22.Proofs.Token.Value

/-!
# Which texts are numbers

The texts that are read as numbers, told without reading them: an integer is digits after a sign or
none (`Spells`), and a float is digits with a point among them or none, and an exponent or none
(`IsDecimal`), or the name of a value that is not finite, after a sign or none (`IsReal`).  Each
reader refuses exactly the other texts, and the integers outside its range.
-/

namespace Mt22.Number

open Token

variable {w s x : List Char}

/-- One digit or more, and nothing else. -/
def IsDigits (w : List Char) : Prop := w ≠ [] ∧ w.all Char.isDigit = true

theorem readNatural?_eq_some_iff {n : Nat} :
    readNatural? w = some n ↔ IsDigits w ∧ digitsValue w = n := by
  unfold readNatural? IsDigits
  cases w with
  | nil => simp
  | cons c w => by_cases h : (c :: w).all Char.isDigit = true <;> simp [h]

/-! ### Integers -/

/-- The text is a numeral of the integer, with a sign or none. -/
inductive Spells : List Char → Int → Prop
  | plain {ds : List Char} (h : IsDigits ds) : Spells ds (digitsValue ds)
  | plus {ds : List Char} (h : IsDigits ds) : Spells ('+' :: ds) (digitsValue ds)
  | minus {ds : List Char} (h : IsDigits ds) : Spells ('-' :: ds) (-(digitsValue ds : Int))

theorem readInteger?_eq_some_iff {n : Int} : readInteger? w = some n ↔ Spells w n := by
  have hdigits : ∀ {s : List Char} {f : Int → Int},
      (readNatural? s >>= fun m => pure (m : Int)).map f = some n →
        IsDigits s ∧ f (digitsValue s) = n := by
    intro s f h
    cases hm : readNatural? s with
    | none => rw [hm] at h; cases h
    | some m =>
      rw [hm] at h
      obtain ⟨hds, rfl⟩ := readNatural?_eq_some_iff.mp hm
      exact ⟨hds, Option.some.inj h⟩
  constructor
  · intro h
    unfold readInteger? at h
    split at h
    · obtain ⟨hds, rfl⟩ := hdigits h
      exact .minus hds
    · obtain ⟨hds, rfl⟩ := hdigits h
      exact .plus hds
    · obtain ⟨hds, rfl⟩ := hdigits h
      exact .plain hds
  · intro h
    cases h with
    | plain h => exact readInteger?_digits h.1 h.2
    | plus h => rw [readInteger?, readNatural?_digits h.1 h.2]; rfl
    | minus h => rw [readInteger?, readNatural?_digits h.1 h.2]; rfl

/-- The texts that are taken for signed integers: the numerals from `-2 ^ 63` to `2 ^ 63 - 1`. -/
theorem readSigned64?_isSome_iff :
    (readSigned64? w).isSome = true ↔
      ∃ n : Int, Spells w n ∧ -signedLimit ≤ n ∧ n < signedLimit := by
  have hrange : ∀ n : Int, isSigned64 n = true ↔ -signedLimit ≤ n ∧ n < signedLimit := by
    intro n
    rw [isSigned64, Bool.and_eq_true, decide_eq_true_iff, decide_eq_true_iff]
  simp only [readSigned64?, Option.isSome_iff_exists, Option.filter_eq_some_iff,
    readInteger?_eq_some_iff, hrange]

/-- The texts that are taken for unsigned integers: the numerals below `2 ^ 64` without a minus sign,
be it that of zero. -/
theorem readUnsigned64?_isSome_iff : (readUnsigned64? w).isSome = true ↔
    ∃ ds, (w = ds ∨ w = '+' :: ds) ∧ IsDigits ds ∧ digitsValue ds < unsignedLimit := by
  have hread : ∀ s, ((readNatural? s).filter (· < unsignedLimit)).isSome = true ↔
      IsDigits s ∧ digitsValue s < unsignedLimit := by
    intro s
    simp only [Option.isSome_iff_exists, Option.filter_eq_some_iff, readNatural?_eq_some_iff,
      decide_eq_true_iff]
    exact ⟨fun ⟨n, ⟨hs, hn⟩, hlt⟩ => ⟨hs, hn ▸ hlt⟩, fun ⟨hs, hlt⟩ => ⟨_, ⟨hs, rfl⟩, hlt⟩⟩
  unfold readUnsigned64?
  split
  · next s =>
    rw [hread]
    refine ⟨fun h => ⟨s, .inr rfl, h⟩, ?_⟩
    rintro ⟨ds, rfl | hds, h⟩
    · cases (List.all_cons ▸ h.1.2 : ('+'.isDigit && _) = true)
    · rwa [(List.cons.inj hds).2]
  · next hplus =>
    rw [hread]
    refine ⟨fun h => ⟨w, .inl rfl, h⟩, ?_⟩
    rintro ⟨ds, rfl | hds, h⟩
    · exact h
    · exact absurd hds (hplus ds)

/-! ### Floats -/

/-- Digits with a point among them or none, and an exponent or none. -/
def IsDecimal (w : List Char) : Prop :=
  ∃ whole part x, whole.all Char.isDigit = true ∧ part.all Char.isDigit = true ∧
    (whole ≠ [] ∨ part ≠ []) ∧ (x = [] ∨ IsExponent x) ∧
    (w = whole ++ '.' :: (part ++ x) ∨ part = [] ∧ w = whole ++ x)

/-- A number without its sign: a decimal, or a name in letters of either case. -/
def IsMagnitude (w : List Char) : Prop :=
  w.map Char.toLower ∈ ["inf".toList, "infinity".toList, "nan".toList] ∨ IsDecimal w

/-- The text is a number, with a sign or none. -/
def IsReal (w : List Char) : Prop :=
  ∃ s, (w = s ∨ w = '+' :: s ∨ w = '-' :: s) ∧ IsMagnitude s

theorem isExponent_of_readExponent? (h : (Decimal.readExponent? x).isSome = true) :
    x = [] ∨ IsExponent x := by
  cases x with
  | nil => exact .inl rfl
  | cons c s =>
    rw [Decimal.readExponent?] at h
    split at h
    · next hc =>
      obtain ⟨n, hn⟩ := Option.isSome_iff_exists.mp h
      refine .inr ?_
      cases readInteger?_eq_some_iff.mp hn with
      | plain hds => exact ⟨c, [], s, rfl, hc, .inl rfl, hds⟩
      | @plus ds hds => exact ⟨c, ['+'], ds, rfl, hc, .inr (.inl rfl), hds⟩
      | @minus ds hds => exact ⟨c, ['-'], ds, rfl, hc, .inr (.inr rfl), hds⟩
    · cases h

theorem Decimal.read?_isSome_iff : (Decimal.read? w).isSome = true ↔ IsDecimal w := by
  constructor
  · intro h
    have hw := List.takeWhile_append_dropWhile (p := Char.isDigit) (l := w)
    unfold Decimal.read? at h
    dsimp only at h
    -- the digits before the point are taken first, then those after it if there is one
    split at h
    · next r hr =>
      split at h
      · cases h
      · next hne =>
        rw [Option.isSome_map] at h
        have hr' := List.takeWhile_append_dropWhile (p := Char.isDigit) (l := r)
        refine ⟨w.takeWhile Char.isDigit, r.takeWhile Char.isDigit, r.dropWhile Char.isDigit,
          List.all_takeWhile, List.all_takeWhile, ?_, isExponent_of_readExponent? h, .inl ?_⟩
        · rw [Bool.and_eq_true, List.isEmpty_iff, List.isEmpty_iff, Decidable.not_and_iff_or_not] at hne
          exact hne
        · rw [hr', ← hr, hw]
    · split at h
      · cases h
      · next hne =>
        rw [Option.isSome_map] at h
        refine ⟨w.takeWhile Char.isDigit, [], w.dropWhile Char.isDigit, List.all_takeWhile, rfl,
          .inl ?_, isExponent_of_readExponent? h, .inr ⟨rfl, hw.symm⟩⟩
        intro hempty
        rw [hempty] at hne
        exact hne rfl
  · rintro ⟨whole, part, x, hwhole, hpart, hne, hx, rfl | ⟨rfl, rfl⟩⟩
    · exact Parts.read?_isSome ⟨hwhole, hpart, hx, .inl rfl⟩ hne
    · exact Parts.read?_isSome ⟨hwhole, hpart, hx, .inr ⟨rfl, rfl⟩⟩ hne

namespace Binary64

theorem readMagnitude?_isSome_iff (negative : Bool) :
    (readMagnitude? negative w).isSome = true ↔ IsMagnitude w := by
  unfold readMagnitude? IsMagnitude
  dsimp only
  split
  · next h => exact iff_of_true rfl (.inl (by rcases h with h | h <;> simp [h]))
  · next hinf =>
    split
    · next h => exact iff_of_true rfl (.inl (by simp [h]))
    · next hnan =>
      rw [Option.isSome_map, Decimal.read?_isSome_iff]
      refine ⟨.inr, fun h => h.resolve_left fun hname => ?_⟩
      rw [List.mem_cons, List.mem_cons, List.mem_singleton] at hname
      rcases hname with h | h | h
      · exact hinf (.inl h)
      · exact hinf (.inr h)
      · exact hnan h

/-- No number starts with two signs. -/
theorem not_isMagnitude_sign {c : Char} (hc : c = '+' ∨ c = '-') : ¬ IsMagnitude (c :: s) := by
  rintro (h | ⟨whole, part, x, hwhole, -, -, hx, h⟩)
  · rw [List.map_cons, List.mem_cons, List.mem_cons, List.mem_singleton] at h
    have hhead : c.toLower = 'i' ∨ c.toLower = 'n' := by
      rcases h with h | h | h
      · exact .inl (List.cons.inj h).1
      · exact .inl (List.cons.inj h).1
      · exact .inr (List.cons.inj h).1
    rcases hc with rfl | rfl
    · exact absurd hhead (by decide)
    · exact absurd hhead (by decide)
  · cases whole with
    | nil =>
      rcases h with h | ⟨-, h⟩
      · rcases hc with rfl | rfl <;> cases h
      · rcases hx with rfl | ⟨e, sign, ds, rfl, rfl | rfl, -⟩
        · cases h
        · rcases hc with rfl | rfl <;> cases h
        · rcases hc with rfl | rfl <;> cases h
    | cons d whole =>
      have hd : c = d := by
        rcases h with h | ⟨-, h⟩
        · exact (List.cons.inj h).1
        · exact (List.cons.inj h).1
      subst hd
      rcases hc with rfl | rfl <;> cases (List.all_cons ▸ hwhole : (Char.isDigit _ && _) = true)

theorem read?_isSome_iff : (read? w).isSome = true ↔ IsReal w := by
  unfold read?
  split
  · next s =>
    rw [readMagnitude?_isSome_iff]
    refine ⟨fun h => ⟨s, .inr (.inr rfl), h⟩, ?_⟩
    rintro ⟨m, rfl | hm | hm, h⟩
    · exact absurd h (not_isMagnitude_sign (.inr rfl))
    · cases hm
    · rwa [(List.cons.inj hm).2]
  · next s =>
    rw [readMagnitude?_isSome_iff]
    refine ⟨fun h => ⟨s, .inr (.inl rfl), h⟩, ?_⟩
    rintro ⟨m, rfl | hm | hm, h⟩
    · exact absurd h (not_isMagnitude_sign (.inl rfl))
    · rwa [(List.cons.inj hm).2]
    · cases hm
  · next hminus hplus =>
    rw [readMagnitude?_isSome_iff]
    refine ⟨fun h => ⟨w, .inl rfl, h⟩, ?_⟩
    rintro ⟨m, rfl | hm | hm, h⟩
    · exact h
    · exact absurd hm (hplus m)
    · exact absurd hm (hminus m)

end Binary64

end Mt22.Number

namespace Mt22.Literal

open Mt22.Number Mt22.Token

/-- The text is that of a float: a number, or an exponent after a point by itself. -/
def IsFloatText (w : List Char) : Prop := IsReal w ∨ ∃ x, w = '.' :: x ∧ IsExponent x

/-- A point by itself is given a digit, so the texts that are read are those of floats. -/
theorem read?_withLeadingZero_isSome_iff {w : List Char} :
    (Binary64.read? (withLeadingZero w)).isSome = true ↔ IsFloatText w := by
  unfold IsFloatText
  have hexponent : ∀ {c : Char} {s : List Char}, c = 'e' ∨ c = 'E' →
      (Binary64.read? ('0' :: '.' :: c :: s)).isSome =
        (Decimal.readExponent? (c :: s)).isSome ∧ ¬ IsReal ('.' :: c :: s) := by
    intro c s hc
    rw [← Binary64.read?_isSome_iff, Binary64.read?_eq (.inl rfl), Binary64.read?_eq (.inr rfl),
      Option.isSome_map, Option.isSome_map]
    rcases hc with rfl | rfl
    · exact ⟨Option.isSome_map, Bool.false_ne_true⟩
    · exact ⟨Option.isSome_map, Bool.false_ne_true⟩
  unfold withLeadingZero
  split
  · next c s =>
    split
    · next hc =>
      obtain ⟨hread, hreal⟩ := hexponent (s := s) hc
      rw [hread]
      constructor
      · intro h
        refine .inr ⟨_, rfl, (isExponent_of_readExponent? h).resolve_left ?_⟩
        exact List.cons_ne_nil c s
      · rintro (h | ⟨x, hx, h⟩)
        · exact absurd h hreal
        · rw [(List.cons.inj hx).2]
          exact Decimal.readExponent?_isSome (.inr h)
    · next hc =>
      rw [Binary64.read?_isSome_iff]
      refine ⟨.inl, fun h => h.resolve_right ?_⟩
      rintro ⟨x, hx, e, sign, ds, rfl, he, -⟩
      cases hx
      exact hc he
  · next hpoint =>
    rw [Binary64.read?_isSome_iff]
    refine ⟨.inl, fun h => h.resolve_right ?_⟩
    rintro ⟨x, hx, e, sign, ds, rfl, -⟩
    exact hpoint _ _ hx

end Mt22.Literal
