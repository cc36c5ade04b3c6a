import Mt22.Proofs.Token.Reading

/-!
# Reading numbers and strings

The parts of a number are read one after the other.  For each part, either a text of its class
is taken or the part is missing (`integer_cases`, `fraction_cases`, `exponent_cases`), and from
these the three alternatives of a float are put together.  An integer is read as such only where
no float can be read; nothing that is no part of a number after it makes sure of that
(`lacks_float_of_integer`).

A string is read unit by unit, an escape being a unit of two characters.
-/

namespace Mt22.Token

open Peg Mt22.Tree

/-! ### Integers -/

/-- A character that would prolong a number. -/
def isNumberChar (c : Char) : Bool := isWordChar c || c = '.'

theorem isWordChar_isNumberChar (c : Char) (h : isWordChar c = true) : isNumberChar c = true := by
  simp [isNumberChar, h]

theorem isDigit_isNumberChar (c : Char) (h : c.isDigit = true) : isNumberChar c = true :=
  isWordChar_isNumberChar c (isWordChar_of_isDigit h)

theorem isDigitChar_isNumberChar (c : Char) (h : isDigitChar c = true) : isNumberChar c = true :=
  isWordChar_isNumberChar c (isWordChar_of_isDigitChar h)

theorem takes_integer {w s : List Char} (hw : isInteger w = true) (hs : Stops isDigitChar s) :
    Takes wholeDigits (w ++ s) w s := by
  cases w with
  | nil => cases hw
  | cons c cs =>
    by_cases hc : c = '0'
    · subst hc
      obtain rfl : cs = [] := by simpa [isInteger] using hw
      exact (takes_text ['0'] s).choice
    · simp only [isInteger, hc, if_false, Bool.and_eq_true] at hw
      have hstar := takes_star oneOf_digitChar (cs ++ s)
      rw [(takeWhile_append_of_stops hw.2 hs).1, (takeWhile_append_of_stops hw.2 hs).2] at hstar
      have hone : Takes (one fun c => c.isDigit && c != '0') (c :: (cs ++ s)) [c] (cs ++ s) :=
        takes_one (by simp [hw.1, hc])
      have hzero : Lacks (text ['0']) (c :: (cs ++ s)) :=
        lacks_text (by simpa [List.cons_prefix_cons] using Ne.symm hc)
      exact hzero.choice_takes (hone.seq hstar)

theorem lacks_integer {s : List Char} (h : Stops Char.isDigit s) : Lacks wholeDigits s := by
  cases s with
  | nil => exact (lacks_text (by simp)).choice lacks_one_nil.seq
  | cons c s =>
    have hc := h c rfl
    refine (lacks_text ?_).choice (lacks_one ?_).seq
    · rintro ⟨t, ht⟩
      obtain rfl : '0' = c := (List.cons.inj ht).1
      cases hc
    · simp [hc]

theorem integer_cases (s : List Char) :
    (∃ w s', s = w ++ s' ∧ isInteger w = true ∧ Takes wholeDigits s w s') ∨
      Lacks wholeDigits s := by
  cases s with
  | nil => exact .inr (lacks_integer (stops_nil _))
  | cons c s =>
    by_cases hz : c = '0'
    · subst hz
      exact .inl ⟨['0'], s, rfl, rfl, (takes_text ['0'] s).choice⟩
    · cases hc : c.isDigit with
      | false => exact .inr (lacks_integer (stops_cons hc))
      | true =>
        left
        have hw : isInteger (c :: s.takeWhile isDigitChar) = true := by
          simp only [isInteger, hz, if_false, hc, Bool.true_and]
          exact all_takeWhile _ _
        have hs : c :: s = (c :: s.takeWhile isDigitChar) ++ s.dropWhile isDigitChar := by
          rw [List.cons_append, List.takeWhile_append_dropWhile]
        have ht := takes_integer hw (stops_dropWhile isDigitChar s)
        rw [← hs] at ht
        exact ⟨_, _, hs, hw, ht⟩

/-- What is read as an integer is one. -/
theorem integer_of_ends {o : Nat} {s : List Char} {c : Cursor} {ts : List Tree}
    (h : Ends .tight wholeDigits ⟨o, s⟩ (some (ts, c))) : isInteger (textAll ts) = true := by
  rcases integer_cases s with ⟨w, s', -, hw, ht⟩ | hl
  · rw [(ht.unique h).1, hw]
  · exact absurd h hl.not_ends

/-! ### The parts of floats -/

theorem isInteger_head {w : List Char} (h : isInteger w = true) :
    ∃ c cs, w = c :: cs ∧ c.isDigit = true := by
  cases w with
  | nil => cases h
  | cons c cs =>
    refine ⟨c, cs, rfl, ?_⟩
    by_cases hc : c = '0'
    · subst hc; rfl
    · simp only [isInteger, hc, if_false, Bool.and_eq_true] at h
      exact h.1

theorem takes_fraction {w s : List Char} (hw : IsFraction w) (hs : Stops Char.isDigit s) :
    Takes fraction (w ++ s) w s := by
  obtain ⟨ds, rfl, hds⟩ := hw
  have hstar := takes_star oneOf_digit (ds ++ s)
  rw [(takeWhile_append_of_stops hds hs).1, (takeWhile_append_of_stops hds hs).2] at hstar
  exact (takes_text ['.'] (ds ++ s)).seq hstar

theorem lacks_fraction {s : List Char} (h : Stops (· = '.') s) : Lacks fraction s := by
  refine (lacks_text ?_).seq
  rintro ⟨t, rfl⟩
  have := h '.' rfl
  simp at this

theorem fraction_cases (s : List Char) :
    (∃ w s', s = w ++ s' ∧ IsFraction w ∧ Takes fraction s w s') ∨ Lacks fraction s := by
  cases s with
  | nil => exact .inr (lacks_fraction (stops_nil _))
  | cons c s =>
    by_cases hc : c = '.'
    · subst hc
      left
      have hs : '.' :: s = ('.' :: s.takeWhile Char.isDigit) ++ s.dropWhile Char.isDigit := by
        rw [List.cons_append, List.takeWhile_append_dropWhile]
      have hw : IsFraction ('.' :: s.takeWhile Char.isDigit) := ⟨_, rfl, all_takeWhile _ _⟩
      have ht := takes_fraction hw (stops_dropWhile Char.isDigit s)
      rw [← hs] at ht
      exact ⟨_, _, hs, hw, ht⟩
    · exact .inr (lacks_fraction (stops_cons (by simp [hc])))

theorem oneOf_mark : OneOf (Peg.oneOf ["e", "E"]) (fun c => c = 'e' || c = 'E') :=
  (oneOf_char 'e').choice (oneOf_char 'E')

theorem oneOf_sign : OneOf (Peg.oneOf ["+", "-"]) (fun c => c = '+' || c = '-') :=
  (oneOf_char '+').choice (oneOf_char '-')

theorem takes_digits {ds s : List Char} (hne : ds ≠ []) (hds : ds.all Char.isDigit = true)
    (hs : Stops Char.isDigit s) : Takes (plus digit) (ds ++ s) ds s := by
  cases ds with
  | nil => exact absurd rfl hne
  | cons d ds =>
    simp only [List.all_cons, Bool.and_eq_true] at hds
    have hstar := takes_star oneOf_digit (ds ++ s)
    rw [(takeWhile_append_of_stops hds.2 hs).1, (takeWhile_append_of_stops hds.2 hs).2] at hstar
    exact (oneOf_digit.takes hds.1).seq hstar

theorem lacks_sign {s : List Char} (h : Stops (fun c => c = '+' || c = '-') s) :
    Lacks (Peg.oneOf ["+", "-"]) s := by
  cases s with
  | nil => exact oneOf_sign.lacks_nil
  | cons c s => exact oneOf_sign.lacks (h c rfl)

theorem takes_exponent {w s : List Char} (hw : IsExponent w) (hs : Stops Char.isDigit s) :
    Takes exponent (w ++ s) w s := by
  obtain ⟨e, sign, ds, rfl, he, hsign, hne, hds⟩ := hw
  have hd := takes_digits hne hds hs
  have hmark : Takes (Peg.oneOf ["e", "E"]) (e :: (sign ++ ds) ++ s) [e] (sign ++ (ds ++ s)) := by
    have := oneOf_mark.takes (x := e) (s := sign ++ (ds ++ s)) (by simpa using he)
    simpa using this
  have hopt : Takes (.opt (Peg.oneOf ["+", "-"])) (sign ++ (ds ++ s)) sign (ds ++ s) := by
    rcases hsign with rfl | rfl | rfl
    · refine (lacks_sign ?_).opt
      cases ds with
      | nil => exact absurd rfl hne
      | cons d ds =>
        refine stops_cons ?_
        simp only [List.all_cons, Bool.and_eq_true] at hds
        rcases Decidable.em (d = '+') with rfl | h1
        · cases hds.1
        · rcases Decidable.em (d = '-') with rfl | h2
          · cases hds.1
          · simp [h1, h2]
    · exact (oneOf_sign.takes (by simp)).opt
    · exact (oneOf_sign.takes (by simp)).opt
  exact hmark.seq (hopt.seq hd)

theorem lacks_exponent {s : List Char} (h : Stops (fun c => c = 'e' || c = 'E') s) :
    Lacks exponent s := by
  refine Lacks.seq ?_
  cases s with
  | nil => exact oneOf_mark.lacks_nil
  | cons c s => exact oneOf_mark.lacks (h c rfl)

theorem exponent_cases (s : List Char) :
    (∃ w s', s = w ++ s' ∧ IsExponent w ∧ Takes exponent s w s') ∨ Lacks exponent s := by
  cases s with
  | nil => exact .inr (lacks_exponent (stops_nil _))
  | cons e s =>
    cases he : (decide (e = 'e') || decide (e = 'E')) with
    | false => exact .inr (lacks_exponent (stops_cons he))
    | true =>
      have hmark : Takes (Peg.oneOf ["e", "E"]) (e :: s) [e] s := oneOf_mark.takes he
      -- the sign, if there is one
      obtain ⟨sign, t, rfl, hsign, hopt⟩ : ∃ sign t, s = sign ++ t ∧
          (sign = [] ∨ sign = ['+'] ∨ sign = ['-']) ∧
          Takes (.opt (Peg.oneOf ["+", "-"])) s sign t := by
        cases s with
        | nil => exact ⟨[], [], rfl, .inl rfl, oneOf_sign.lacks_nil.opt⟩
        | cons c s =>
          cases hc : (decide (c = '+') || decide (c = '-')) with
          | false => exact ⟨[], c :: s, rfl, .inl rfl, (oneOf_sign.lacks hc).opt⟩
          | true =>
            refine ⟨[c], s, rfl, ?_, (oneOf_sign.takes hc).opt⟩
            rcases Bool.or_eq_true_iff.mp hc with h | h <;> simp_all
      by_cases hne : t.takeWhile Char.isDigit = []
      · right
        refine hmark.seq_lacks (hopt.seq_lacks (Lacks.seq ?_))
        cases t with
        | nil => exact oneOf_digit.lacks_nil
        | cons d t =>
          refine oneOf_digit.lacks ?_
          cases hd : d.isDigit with
          | false => rfl
          | true => rw [List.takeWhile_cons_of_pos hd] at hne; cases hne
      · left
        have hd := takes_digits hne (all_takeWhile _ t) (stops_dropWhile Char.isDigit t)
        rw [List.takeWhile_append_dropWhile] at hd
        refine ⟨e :: (sign ++ t.takeWhile Char.isDigit), t.dropWhile Char.isDigit, ?_,
          ⟨e, sign, _, rfl, by simpa using he, hsign, hne, all_takeWhile _ t⟩, ?_⟩
        · simp [List.takeWhile_append_dropWhile]
        · exact hmark.seq (hopt.seq hd)

/-! ### Floats -/

theorem isExponent_head {w : List Char} (h : IsExponent w) :
    ∃ e t, w = e :: t ∧ (e = 'e' ∨ e = 'E') := by
  obtain ⟨e, sign, ds, rfl, he, -⟩ := h
  exact ⟨e, _, rfl, he⟩

theorem stops_exponent {p : Char → Bool} {w s : List Char} (h : IsExponent w)
    (he : p 'e' = false) (hE : p 'E' = false) : Stops p (w ++ s) := by
  obtain ⟨e, t, rfl, rfl | rfl⟩ := isExponent_head h
  · exact stops_cons he
  · exact stops_cons hE

theorem lacks_fraction_of_stops {s : List Char} (hs : Stops isNumberChar s) :
    Lacks fraction s := by
  refine lacks_fraction (hs.mono ?_)
  intro c hc
  obtain rfl : c = '.' := by simpa using hc
  decide

theorem lacks_exponent_of_stops {s : List Char} (hs : Stops isNumberChar s) :
    Lacks exponent s := by
  refine lacks_exponent (hs.mono ?_)
  intro c hc
  rcases Bool.or_eq_true_iff.mp hc with h | h
  · obtain rfl : c = 'e' := by simpa using h
    decide
  · obtain rfl : c = 'E' := by simpa using h
    decide

theorem lacks_fraction_of_integer {w s : List Char} (hw : isInteger w = true) :
    Lacks fraction (w ++ s) := by
  obtain ⟨c, cs, rfl, hc⟩ := isInteger_head hw
  refine lacks_fraction (stops_cons ?_)
  rcases Decidable.em (c = '.') with rfl | h
  · cases hc
  · simp [h]

theorem takes_float {w s : List Char} (hw : IsFloat w) (hs : Stops isNumberChar s) :
    Takes Rule.floatLit.body (w ++ s) w s := by
  have hdig : Stops Char.isDigit s := hs.mono isDigit_isNumberChar
  rcases hw with ⟨i, f, x, rfl, hi, hf, hx⟩ | ⟨i, x, rfl, hi, hx⟩ | ⟨f, x, rfl, hf, hx⟩
  · -- the first alternative: the point follows the whole part
    have hpoint : Stops isDigitChar (f ++ (x ++ s)) := by
      obtain ⟨ds, rfl, -⟩ := hf
      exact stops_cons (by decide)
    have hwhole := takes_integer hi hpoint
    have hrest : Takes (.seq fraction (.opt exponent)) (f ++ (x ++ s)) (f ++ x) s := by
      rcases hx with rfl | hx
      · exact (takes_fraction hf hdig).seq (lacks_exponent_of_stops hs).opt
      · have hfrac := takes_fraction hf (stops_exponent (p := Char.isDigit) (s := s) hx rfl rfl)
        exact hfrac.seq (takes_exponent hx hdig).opt
    have ht : Takes Rule.floatLit.body _ _ _ := (hwhole.seq hrest).choice
    simpa only [List.append_assoc] using ht
  · have hwhole := takes_integer hi (stops_exponent (p := isDigitChar) (s := s) hx rfl rfl)
    have hfrac : Lacks fraction (x ++ s) := lacks_fraction (stops_exponent hx rfl rfl)
    have hexp := takes_exponent hx hdig
    rw [List.append_assoc]
    exact (hwhole.seq_lacks hfrac.seq).choice_takes (hwhole.seq hexp).choice
  · have hwhole : Lacks wholeDigits (f ++ x ++ s) := by
      obtain ⟨ds, rfl, -⟩ := hf
      exact lacks_integer (stops_cons rfl)
    have hfrac := takes_fraction hf (stops_exponent (p := Char.isDigit) (s := s) hx rfl rfl)
    have hexp := takes_exponent hx hdig
    rw [← List.append_assoc] at hfrac
    exact hwhole.seq.choice_takes (hwhole.seq.choice_takes (hfrac.seq hexp))

/-- No float stands where an integer is taken that is followed by neither a point nor an exponent. -/
theorem lacks_float_of_takes {w s : List Char} (hw : isInteger w = true)
    (hwhole : Takes wholeDigits (w ++ s) w s) (hfrac : Lacks fraction s) (hexp : Lacks exponent s) :
    Lacks Rule.floatLit.body (w ++ s) :=
  (hwhole.seq_lacks hfrac.seq).choice
    ((hwhole.seq_lacks hexp).choice (lacks_fraction_of_integer hw).seq)

/-- Where an integer stands and nothing prolongs it, no float stands. -/
theorem lacks_float_of_integer {w s : List Char} (hw : isInteger w = true)
    (hs : Stops isNumberChar s) : Lacks Rule.floatLit.body (w ++ s) :=
  lacks_float_of_takes hw (takes_integer hw (hs.mono isDigitChar_isNumberChar))
    (lacks_fraction_of_stops hs) (lacks_exponent_of_stops hs)

theorem lacks_float {s : List Char} (h : Stops (fun c => c.isDigit || c = '.') s) :
    Lacks Rule.floatLit.body s := by
  have hwhole : Lacks wholeDigits s := lacks_integer (h.mono fun c hc => by simp [hc])
  have hfrac : Lacks fraction s :=
    lacks_fraction (h.mono fun c hc => by
      obtain rfl : c = '.' := by simpa using hc
      rfl)
  exact hwhole.seq.choice (hwhole.seq.choice hfrac.seq)

/-- What is read as a float is one. -/
theorem float_of_ends {o : Nat} {s : List Char} {c : Cursor} {ts : List Tree}
    (h : Ends .tight Rule.floatLit.body ⟨o, s⟩ (some (ts, c))) : IsFloat (textAll ts) := by
  rcases integer_cases s with ⟨i, s1, rfl, hi, hwhole⟩ | hwhole
  · rcases fraction_cases s1 with ⟨f, s2, rfl, hf, hfrac⟩ | hfrac
    · rcases exponent_cases s2 with ⟨x, s3, rfl, hx, hexp⟩ | hexp
      · have ht := (hwhole.seq (hfrac.seq hexp.opt)).choice
          (b := .choice (.seq wholeDigits exponent) (.seq fraction exponent))
        rw [(ht.unique h).1]
        exact .inl ⟨i, f, x, by simp, hi, hf, .inr hx⟩
      · have ht := (hwhole.seq (hfrac.seq hexp.opt)).choice
          (b := .choice (.seq wholeDigits exponent) (.seq fraction exponent))
        rw [(ht.unique h).1]
        exact .inl ⟨i, f, [], by simp, hi, hf, .inl rfl⟩
    · rcases exponent_cases s1 with ⟨x, s3, rfl, hx, hexp⟩ | hexp
      · have ht : Takes Rule.floatLit.body _ _ _ :=
          (hwhole.seq_lacks hfrac.seq).choice_takes (hwhole.seq hexp).choice
        rw [(ht.unique h).1]
        exact .inr (.inl ⟨i, x, rfl, hi, hx⟩)
      · exact absurd h (lacks_float_of_takes hi hwhole hfrac hexp).not_ends
  · rcases fraction_cases s with ⟨f, s2, rfl, hf, hfrac⟩ | hfrac
    · rcases exponent_cases s2 with ⟨x, s3, rfl, hx, hexp⟩ | hexp
      · have ht : Takes Rule.floatLit.body _ _ _ :=
          hwhole.seq.choice_takes (hwhole.seq.choice_takes (hfrac.seq hexp))
        rw [(ht.unique h).1]
        exact .inr (.inr ⟨f, x, rfl, hf, hx⟩)
      · exact absurd h (hwhole.seq.choice (hwhole.seq.choice (hfrac.seq_lacks hexp))).not_ends
    · exact absurd h (hwhole.seq.choice (hwhole.seq.choice hfrac.seq)).not_ends

/-! ### Strings -/

theorem OneOf.congr {e : Peg} {p q : Char → Bool} (h : OneOf e p) (hpq : ∀ c, p c = q c) :
    OneOf e q := by
  obtain rfl : p = q := funext hpq
  exact h

theorem oneOf_escape :
    OneOf (Peg.oneOf ["b", "f", "r", "n", "t", "'", "\\", "\""]) isEscape := by
  have h := (oneOf_char 'b').choice ((oneOf_char 'f').choice ((oneOf_char 'r').choice
    ((oneOf_char 'n').choice ((oneOf_char 't').choice ((oneOf_char '\'').choice
    ((oneOf_char '\\').choice (oneOf_char '"')))))))
  exact h.congr fun c => by simp [isEscape]

theorem oneOf_special :
    OneOf (Peg.oneOf ["\"", "\\", "\n", "\r"]) (fun c => !isOrdinary c) := by
  have h := (oneOf_char '"').choice ((oneOf_char '\\').choice
    ((oneOf_char '\n').choice (oneOf_char '\r')))
  exact h.congr fun c => by simp [isOrdinary, Bool.or_assoc]

theorem takes_escape {c : Char} (h : isEscape c = true) (s : List Char) :
    Takes stringChar ('\\' :: c :: s) ['\\', c] s :=
  ((takes_text ['\\'] (c :: s)).seq (oneOf_escape.takes h)).choice

theorem takes_ordinary {c : Char} (h : isOrdinary c = true) (s : List Char) :
    Takes stringChar (c :: s) [c] s := by
  have hesc : Lacks (text ['\\']) (c :: s) := by
    refine (oneOf_char '\\').lacks ?_
    rcases Decidable.em (c = '\\') with rfl | hc
    · cases h
    · simp [hc]
  have hany : Takes any (c :: s) [c] s := takes_one rfl
  exact hesc.seq.choice_takes ((oneOf_special.lacks (by simp [h])).absent.seq hany)

/-- Where neither an escape nor an ordinary character stands, a string is at its end. -/
theorem lacks_stringChar {s : List Char}
    (hesc : ∀ c t, s = '\\' :: c :: t → isEscape c = false) (hord : Stops isOrdinary s) :
    Lacks stringChar s := by
  have hspecial : Lacks (.seq (.absent (Peg.oneOf ["\"", "\\", "\n", "\r"])) any) s := by
    cases s with
    | nil => exact oneOf_special.lacks_nil.absent.seq_lacks lacks_one_nil
    | cons c s => exact (oneOf_special.takes (by simp [hord c rfl])).absent.seq
  refine Lacks.choice ?_ hspecial
  cases s with
  | nil => exact (lacks_text (by simp)).seq
  | cons c s =>
    rcases Decidable.em (c = '\\') with rfl | hc
    · refine (takes_text ['\\'] s).seq_lacks ?_
      cases s with
      | nil => exact oneOf_escape.lacks_nil
      | cons d s => exact oneOf_escape.lacks (hesc d s rfl)
    · exact ((oneOf_char '\\').lacks (by simp [hc])).seq

theorem takes_stringChars {b : List Char} (hb : isStringBody b = true) (s : List Char) :
    Takes (.more stringChar) (b ++ '"' :: s) b ('"' :: s) := by
  induction hn : b.length using Nat.strongRecOn generalizing b with
  | ind n ih =>
    cases b with
    | nil =>
      have : Lacks stringChar ('"' :: s) := lacks_stringChar (by simp) (stops_cons rfl)
      exact this.more
    | cons c b =>
      rcases Decidable.em (c = '\\') with rfl | hc
      · cases b with
        | nil => cases hb
        | cons d b =>
          simp only [isStringBody, Bool.and_eq_true] at hb
          simp only [List.length_cons] at hn
          exact (takes_escape hb.1 _).more (ih b.length (by omega) hb.2 rfl)
      · rw [isStringBody.eq_3 _ _ (by rintro _ _ rfl; exact absurd rfl hc),
          Bool.and_eq_true] at hb
        simp only [List.length_cons] at hn
        exact (takes_ordinary hb.1 _).more (ih b.length (by omega) hb.2 rfl)

theorem takes_stringBody {b : List Char} (hb : isStringBody b = true) (s : List Char) :
    Takes Rule.strBody.body (b ++ '"' :: s) b ('"' :: s) :=
  (takes_stringChars hb s).star_of_more

theorem stringChars_cases (s : List Char) :
    ∃ b s', isStringBody b = true ∧ Takes (.more stringChar) s b s' := by
  induction hn : s.length using Nat.strongRecOn generalizing s with
  | ind n ih =>
    by_cases hesc : ∃ c t, s = '\\' :: c :: t ∧ isEscape c = true
    · obtain ⟨c, t, rfl, hc⟩ := hesc
      simp only [List.length_cons] at hn
      obtain ⟨b, s', hb, ht⟩ := ih t.length (by omega) t rfl
      exact ⟨'\\' :: c :: b, s', by simp [isStringBody, hc, hb], (takes_escape hc t).more ht⟩
    · cases s with
      | nil => exact ⟨[], [], rfl, (lacks_stringChar (by simp) (stops_nil _)).more⟩
      | cons c t =>
        cases hc : isOrdinary c with
        | true =>
          simp only [List.length_cons] at hn
          obtain ⟨b, s', hb, ht⟩ := ih t.length (by omega) t rfl
          refine ⟨c :: b, s', ?_, (takes_ordinary hc t).more ht⟩
          rw [isStringBody.eq_3 _ _ (by rintro _ _ rfl; cases hc), hc, hb]
          rfl
        | false =>
          refine ⟨[], c :: t, rfl, (lacks_stringChar ?_ (stops_cons hc)).more⟩
          intro d u he
          cases hd : isEscape d with
          | false => rfl
          | true => exact absurd ⟨d, u, he, hd⟩ hesc

/-- What is read between the quotes of a string is the body of one. -/
theorem stringBody_of_ends {o : Nat} {s : List Char} {c : Cursor} {ts : List Tree}
    (h : Ends .tight Rule.strBody.body ⟨o, s⟩ (some (ts, c))) :
    isStringBody (textAll ts) = true := by
  obtain ⟨b, s', hb, ht⟩ := stringChars_cases s
  rw [(ht.star_of_more.unique h).1, hb]

end Mt22.Token
