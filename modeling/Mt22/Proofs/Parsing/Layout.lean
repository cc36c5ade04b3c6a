import Mt22.Proofs.Parsing.Head
import Mt22.Proofs.Trivia

/-!
# Tokens laid out in a text

`Lays ws s rest` says that the text `s` is made of the tokens `ws`, with trivia before each of
them, and that `rest` follows, trivia apart.  Nothing is asked of where a token ends, except of a
word: it must not go on.  That is all that reading needs, since what may follow a number or an
operator never prolongs it.

* `lays_append`: the tokens of two parts are laid out one part after the other.
* `lays_spaced`: tokens with single spaces between them are laid out.
* `lays_of_dropTokens`: the tokens that a given text starts with are laid out in it.
-/

namespace Mt22

open Mt22.Trivia Mt22.Token Mt22.Tree

/-- A word is not prolonged by what follows it. -/
def Bounded (w s : List Char) : Prop := w.head?.any isWordStart = true → Stops isWordChar s

/-- The text is made of these tokens, with trivia before each of them, up to the rest. -/
def Lays : List (List Char) → List Char → List Char → Prop
  | [], s, rest => after s = after rest
  | w :: ws, s, rest => ∃ s', after s = w ++ s' ∧ Bounded w s' ∧ Lays ws s' rest

theorem lays_congr {ws : List (List Char)} {s s' rest rest' : List Char} (hs : after s = after s')
    (hr : after rest = after rest') (h : Lays ws s rest) : Lays ws s' rest' := by
  induction ws generalizing s s' with
  | nil =>
    have h : after s = after rest := h
    exact hs.symm.trans (h.trans hr)
  | cons w ws ih =>
    obtain ⟨r, hw, hb, hr⟩ := h
    exact ⟨r, hs ▸ hw, hb, ih rfl hr⟩

theorem lays_append {vs ws : List (List Char)} {s rest : List Char} :
    Lays (vs ++ ws) s rest ↔ ∃ mid, Lays vs s mid ∧ Lays ws mid rest := by
  induction vs generalizing s with
  | nil =>
    constructor
    · intro h
      exact ⟨s, rfl, h⟩
    · rintro ⟨mid, hv, hw⟩
      exact lays_congr hv.symm rfl hw
  | cons v vs ih =>
    constructor
    · rintro ⟨s', hv, hb, h⟩
      obtain ⟨mid, h1, h2⟩ := ih.mp h
      exact ⟨mid, ⟨s', hv, hb, h1⟩, h2⟩
    · rintro ⟨mid, ⟨s', hv, hb, h1⟩, h2⟩
      exact ⟨s', hv, hb, ih.mpr ⟨mid, h1, h2⟩⟩

/-- The head of a token does not depend on what follows it. -/
theorem headOf_append {w s : List Char} (hne : w ≠ []) (hall : w.head?.any isWordStart = true →
    w.all isWordChar = true) (hb : Bounded w s) : headOf (w ++ s) = headOf w := by
  cases w with
  | nil => exact absurd rfl hne
  | cons c cs =>
    cases hc : isWordStart c with
    | false => simp [headOf, hc]
    | true =>
      have hstart : (c :: cs).head?.any isWordStart = true := by simpa using hc
      have hl : lead (c :: cs ++ s) = c :: cs := lead_append (hall hstart) (hb hstart)
      have hl' : lead (c :: cs) = c :: cs := by
        have := lead_append (hall hstart) (stops_nil isWordChar)
        rwa [List.append_nil] at this
      rw [List.cons_append] at hl
      rw [List.cons_append, headOf, headOf, hl, hl']

/-! ### Tokens with spaces between them -/

/-- A text that can be a token: it is not empty, no trivia starts with it, and it is a whole word if
it starts like one. -/
def isLexeme : List Char → Bool
  | [] => false
  | c :: cs => !isSpace c && (c ≠ '/' || cs.isEmpty) && (!isWordStart c || cs.all isWordChar)

theorem isLexeme_ne_nil {w : List Char} (h : isLexeme w = true) : w ≠ [] := by
  rintro rfl
  cases h

theorem isLexeme_all {w : List Char} (h : isLexeme w = true) (hw : w.head?.any isWordStart = true) :
    w.all isWordChar = true := by
  cases w with
  | nil => rfl
  | cons c cs =>
    have hc : isWordStart c = true := by simpa using hw
    simp only [isLexeme, hc, Bool.and_eq_true, Bool.not_true, Bool.false_or] at h
    rw [List.all_cons, isWordChar_of_isWordStart hc, h.2]
    rfl

theorem headOf_lexeme {w s : List Char} (h : isLexeme w = true) (hb : Bounded w s) :
    headOf (w ++ s) = headOf w :=
  headOf_append (isLexeme_ne_nil h) (isLexeme_all h) hb

/-- The head of a text is the one of its first token. -/
theorem Lays.headOf_cons {w : List Char} {ws : List (List Char)} {s rest : List Char}
    (hl : isLexeme w = true) (h : Lays (w :: ws) s rest) : headOf (after s) = headOf w := by
  obtain ⟨s', hs, hb, -⟩ := h
  rw [hs, headOf_lexeme hl hb]

/-- No trivia stands where a token does that is followed by a space or by nothing. -/
theorem after_lexeme {w s : List Char} (h : isLexeme w = true) (hs : s = [] ∨ ∃ s', s = ' ' :: s') :
    after (w ++ s) = w ++ s := by
  refine after_of_piece?_none ?_
  cases w with
  | nil => cases h
  | cons c cs =>
    simp only [isLexeme, Bool.and_eq_true, Bool.or_eq_true, Bool.not_eq_true', List.isEmpty_iff,
      decide_eq_true_eq] at h
    by_cases hc : c = '/'
    · obtain rfl := h.1.2.resolve_left (absurd hc)
      subst hc
      rcases hs with rfl | ⟨s', rfl⟩
      · rfl
      · exact piece?_slash_space s'
    · exact piece?_cons_eq_none h.1.1 hc _

theorem bounded_space (w s : List Char) : Bounded w (' ' :: s) :=
  fun _ => stops_cons (by decide)

/-- Tokens with single spaces between them are laid out. -/
theorem lays_spaced : ∀ {ws : List (List Char)}, (∀ w ∈ ws, isLexeme w = true) →
    Lays ws ([' '].intercalate ws) []
  | [], _ => rfl
  | [w], h => by
    refine ⟨[], ?_, fun _ => stops_nil _, rfl⟩
    have := after_lexeme (h w List.mem_cons_self) (.inl rfl)
    rw [List.intercalate_singleton]
    rwa [List.append_nil] at this ⊢
  | w :: v :: ws, h => by
    have hrest := lays_spaced fun x hx => h x (List.mem_cons_of_mem _ hx)
    refine ⟨' ' :: [' '].intercalate (v :: ws), ?_, bounded_space w _, ?_⟩
    · rw [List.intercalate_cons_cons, List.append_assoc]
      exact after_lexeme (h w List.mem_cons_self) (.inr ⟨_, rfl⟩)
    · exact lays_congr (after_space _).symm rfl hrest

/-! ### Tokens of a given text -/

/-- What is left of a text after these tokens, if it starts with them.  White space may stand before
each of them and after the last, and a word must be seen to end. -/
def dropTokens : List (List Char) → List Char → Option (List Char)
  | [], s => some (s.dropWhile isSpace)
  | w :: ws, s =>
    let s := s.dropWhile isSpace
    let s' := s.drop w.length
    if w.isPrefixOf s && isLexeme w && w ≠ ['/'] &&
        (!w.head?.any isWordStart || s'.head?.any (!isWordChar ·)) then
      dropTokens ws s'
    else none

theorem after_dropWhile_isSpace (s z : List Char) :
    after (s ++ z) = after (s.dropWhile isSpace ++ z) := by
  induction s with
  | nil => rfl
  | cons c s ih =>
    cases hc : isSpace c with
    | true => rw [List.dropWhile_cons_of_pos hc, List.cons_append, after_cons_of_isSpace hc, ih]
    | false => rw [List.dropWhile_cons_of_neg (by simp [hc])]

/-- A token is laid out where it stands.  A slash alone is left out: it could start a comment. -/
theorem lays_cons {w : List Char} {ws : List (List Char)} {s rest : List Char}
    (hw : isLexeme w = true) (hslash : w ≠ ['/']) (hb : Bounded w s) (h : Lays ws s rest) :
    Lays (w :: ws) (w ++ s) rest := by
  refine ⟨s, after_of_piece?_none ?_, hb, h⟩
  cases w with
  | nil => cases hw
  | cons c cs =>
    simp only [isLexeme, Bool.and_eq_true, Bool.or_eq_true, Bool.not_eq_true', List.isEmpty_iff,
      decide_eq_true_eq] at hw
    refine piece?_cons_eq_none hw.1.1 ?_ _
    rintro rfl
    rw [hw.1.2.resolve_left (absurd rfl)] at hslash
    exact hslash rfl

/-- Tokens that a text is seen to start with are laid out in it, whatever follows the text. -/
theorem lays_of_dropTokens {ws : List (List Char)} {s r : List Char}
    (h : dropTokens ws s = some r) (z : List Char) : Lays ws (s ++ z) (r ++ z) := by
  induction ws generalizing s with
  | nil =>
    obtain rfl := Option.some.inj h
    exact after_dropWhile_isSpace s z
  | cons w ws ih =>
    rw [dropTokens] at h
    split at h
    · next hw =>
      simp only [Bool.and_eq_true, List.isPrefixOf_iff_prefix, decide_eq_true_eq] at hw
      obtain ⟨⟨⟨⟨s', hs⟩, hlex⟩, hslash⟩, hend⟩ := hw
      rw [← hs, List.drop_left] at h hend
      refine lays_congr (after_dropWhile_isSpace s z).symm rfl ?_
      rw [← hs, List.append_assoc]
      refine lays_cons hlex hslash ?_ (ih h)
      intro hword
      rw [hword, Bool.not_true, Bool.false_or] at hend
      cases s' with
      | nil => cases hend
      | cons d s' => exact stops_cons (by simpa using hend)
    · cases h

/-- A token is laid out between others that are seen to stand before and after it. -/
theorem lays_around (vs : List (List Char)) {ws : List (List Char)} {w s r : List Char}
    (hs : dropTokens vs s = some []) (hr : dropTokens ws r = some []) (hw : isLexeme w = true)
    (hslash : w ≠ ['/']) (hb : Bounded w r) : Lays (vs ++ w :: ws) (s ++ (w ++ r)) [] := by
  have hrest : Lays ws (r ++ []) [] := lays_of_dropTokens hr []
  rw [List.append_nil] at hrest
  exact lays_append.mpr ⟨_, lays_of_dropTokens hs _, lays_cons hw hslash hb hrest⟩

/-! ### What follows a number -/

/-- Trivia starts with a space or a slash. -/
theorem head_of_piece? {s : List Char} {x : List Char × List Char} (h : piece? s = some x) :
    ∃ c r, s = c :: r ∧ (isSpace c = true ∨ c = '/') := by
  cases s with
  | nil => cases h
  | cons c r =>
    refine ⟨c, r, rfl, ?_⟩
    by_cases hs : c = '/'
    · exact .inr hs
    · left
      cases hc : isSpace c with
      | true => rfl
      | false => rw [piece?_cons_eq_none hc hs] at h; cases h

/-- Heads with which a number cannot go on. -/
def Head.endsNumber : Head → Bool
  | finish => true
  | mark c => c ≠ '.'
  | word _ | name | digit => false

theorem isNumberChar_of_isSpace {c : Char} (h : isSpace c = true) : isNumberChar c = false := by
  simp only [isSpace, Bool.or_eq_true, decide_eq_true_eq] at h
  rcases h with (((rfl | rfl) | rfl) | rfl) | rfl <;> decide

/-- A number ends where the next token has such a head, be it at once or after trivia. -/
theorem stops_of_head {s : List Char} (h : (headOf (after s)).endsNumber = true) :
    Stops isNumberChar s := by
  cases hp : piece? s with
  | some x =>
    obtain ⟨c, r, rfl, hc⟩ := head_of_piece? hp
    refine stops_cons ?_
    rcases hc with hc | rfl
    · exact isNumberChar_of_isSpace hc
    · decide
  | none =>
    rw [after_of_piece?_none hp] at h
    cases s with
    | nil => exact stops_nil _
    | cons c r =>
      refine stops_cons ?_
      cases hw : isWordStart c with
      | true =>
        rw [headOf, if_pos hw] at h
        split at h <;> cases h
      | false =>
        cases hd : c.isDigit with
        | true => rw [headOf_digit hd] at h; cases h
        | false =>
          rw [headOf_mark hw hd] at h
          have hdot : c ≠ '.' := of_decide_eq_true h
          cases hn : isWordChar c with
          | false => simp [isNumberChar, hn, hdot]
          | true =>
            rcases isWordStart_or_isDigit hn with h' | h'
            · rw [hw] at h'; cases h'
            · rw [hd] at h'; cases h'

end Mt22
