import Mt22.Proofs.Parsing.Layout
import Mt22.Proofs.Tree.Open

/-!
# The tokens of conforming trees

Every token of a conforming tree can stand as a token in a text (`Conforms.lexemes`), and the first
of them has one of the heads of the rule (`Is.first_token`).  So what a list of trees that fit an
expression starts with is told by the heads of the expression (`Peg.Fits.first_token`).
-/

namespace Mt22

open Mt22.Tree Mt22.Token

/-- The head of `else`. -/
def Head.ofElse : Head := .ofWord "else"

/-- No rule reads a text that starts with `else`. -/
theorem Rule.else_not_mem_first (r : Rule) : Head.ofElse ∉ r.first := by
  have hall : ∀ r ∈ Rule.all, Head.ofElse ∉ r.first := by decide
  exact hall r r.mem_all

/-! ### Tokens of classes -/

theorem isSpace_of_isNumberChar {c : Char} (h : isNumberChar c = true) :
    Trivia.isSpace c = false := by
  cases hs : Trivia.isSpace c with
  | false => rfl
  | true => rw [isNumberChar_of_isSpace hs] at h; cases h

theorem isLexeme_name {w : List Char} (h : isName w = true) :
    isLexeme w = true ∧ headOf w = .name := by
  have hhead : headOf w = .name := by
    refine headOf_eq_name ?_
    have := lead_append (isName_all h) (stops_nil isWordChar)
    rw [List.append_nil] at this
    rwa [this]
  refine ⟨?_, hhead⟩
  cases w with
  | nil => cases h
  | cons c cs =>
    have hall := isName_all h
    simp only [isName, Bool.and_eq_true] at h
    obtain ⟨⟨hc, hcs⟩, -⟩ := h
    have hspace := isSpace_of_isNumberChar (isWordChar_isNumberChar c (isWordChar_of_isWordStart hc))
    have hslash : c ≠ '/' := by
      rintro rfl
      cases hc
    simp [isLexeme, hspace, hslash, hcs]

/-- A token that starts with a digit. -/
theorem isLexeme_digit {c : Char} (h : c.isDigit = true) (cs : List Char) :
    isLexeme (c :: cs) = true ∧ headOf (c :: cs) = .digit := by
  have hspace := isSpace_of_isNumberChar (isDigit_isNumberChar c h)
  have hslash : c ≠ '/' := by
    rintro rfl
    cases h
  exact ⟨by simp [isLexeme, hspace, hslash, isWordStart_of_isDigit h], headOf_digit h cs⟩

theorem isLexeme_integer {w : List Char} (h : isInteger w = true) :
    isLexeme w = true ∧ headOf w = .digit := by
  obtain ⟨c, cs, rfl, hc⟩ := isInteger_head h
  exact isLexeme_digit hc cs

theorem isLexeme_float {w : List Char} (h : IsFloat w) :
    isLexeme w = true ∧ headOf w ∈ Rule.floatLit.first := by
  have hint : ∀ {i x : List Char}, isInteger i = true →
      isLexeme (i ++ x) = true ∧ headOf (i ++ x) ∈ Rule.floatLit.first := by
    intro i x hi
    obtain ⟨c, cs, rfl, hc⟩ := isInteger_head hi
    obtain ⟨hl, hh⟩ := isLexeme_digit hc (cs ++ x)
    exact ⟨hl, by rw [List.cons_append, hh]; decide⟩
  rcases h with ⟨i, f, x, rfl, hi, -⟩ | ⟨i, x, rfl, hi, -⟩ | ⟨f, x, rfl, ⟨ds, rfl, -⟩, -⟩
  · rw [List.append_assoc]
    exact hint hi
  · exact hint hi
  · refine ⟨rfl, ?_⟩
    rw [List.cons_append, headOf_mark rfl rfl]
    decide

theorem isLexeme_of_allows {r : Rule} {w : List Char} (h : r.Allows w) (hr : r ≠ .strBody) :
    isLexeme w = true ∧ headOf w ∈ r.first := by
  cases r with
  | identifier =>
    obtain ⟨hl, hh⟩ := isLexeme_name h
    exact ⟨hl, List.mem_singleton.mpr hh⟩
  | intLit =>
    obtain ⟨hl, hh⟩ := isLexeme_integer h
    exact ⟨hl, List.mem_singleton.mpr hh⟩
  | floatLit => exact isLexeme_float h
  | strBody => exact absurd rfl hr
  | _ => exact False.elim h

/-! ### Tokens of trees -/

/-- A string literal is one token, which starts with a quote. -/
theorem Tree.Is.strLit_tokens {t : Tree} (h : Is .strLit t) :
    ∃ b, isStringBody b = true ∧ t.tokens = [t.text] ∧ t.text = '"' :: (b ++ ['"']) := by
  obtain ⟨hf, hp⟩ := h.fits (by decide)
  rw [h.tight rfl] at hf
  obtain ⟨hr, hc⟩ := h
  cases t with
  | token | trivia => cases hr
  | node r a b ps =>
    obtain rfl := Option.some.inj hr
    obtain ⟨xs, ys, rfl, hx, hy⟩ := Peg.Fits.seq_iff.mp hf
    obtain ⟨zs, us, rfl, hz, hu⟩ := Peg.Fits.seq_iff.mp hy
    obtain rfl := Peg.Fits.text_iff.mp hx
    obtain rfl := Peg.Fits.text_iff.mp hu
    obtain ⟨v, rfl, hv⟩ := Peg.Fits.call_iff.mp hz
    have hbody : Is .strBody v := ⟨hv, hp v (by simp [parts]) (isNode_of_rule hv)⟩
    obtain ⟨i, j, w, rfl, hw⟩ := hbody.token rfl
    refine ⟨w, hw, rfl, ?_⟩
    simp [text]

/-- Every text of the expression can stand as a token, and no call is of the inside of a string.
Nor is there a `more`, which is only met in the course of a reading. -/
def Peg.isLexical : Peg → Bool
  | text s => isLexeme s
  | call r => r ≠ .strBody
  | seq a b | choice a b => a.isLexical && b.isLexical
  | opt a | star a => a.isLexical
  | more _ => false
  | _ => true

theorem Rule.isLexical_body (r : Rule) (h : r.kind = .plain) : r.body.isLexical = true := by
  have hall : ∀ r ∈ Rule.all, r.kind = .plain → r.body.isLexical = true := by decide
  exact hall r r.mem_all h

theorem Peg.Fits.lexemes {e : Peg} {ts : List Tree} (h : e.Fits ts) (he : e.isLexical = true)
    (hc : ∀ t ∈ ts, t.isNode = true → t.rule? ≠ some .strBody → ∀ w ∈ t.tokens, isLexeme w = true) :
    ∀ w ∈ tokensAll ts, isLexeme w = true := by
  induction h with
  | text s =>
    intro w hw
    obtain rfl : w = s := by simpa using hw
    exact he
  | call hr =>
    intro w hw
    refine hc _ (List.mem_singleton.mpr rfl) (isNode_of_rule hr) ?_ w (by simpa using hw)
    rw [hr]
    intro heq
    exact of_decide_eq_true he (Option.some.inj heq)
  | seq ha hb iha ihb =>
    obtain ⟨ha', hb'⟩ := Bool.and_eq_true_iff.mp he
    intro w hw
    rw [tokensAll_append, List.mem_append] at hw
    rcases hw with hw | hw
    · exact iha ha' (fun t ht => hc t (List.mem_append_left _ ht)) w hw
    · exact ihb hb' (fun t ht => hc t (List.mem_append_right _ ht)) w hw
  | left _ ih => exact ih (Bool.and_eq_true_iff.mp he).1 hc
  | right _ ih => exact ih (Bool.and_eq_true_iff.mp he).2 hc
  | within _ ih => exact ih he hc
  | more => cases he
  | cons _ _ iha ihb =>
    intro w hw
    rw [tokensAll_append, List.mem_append] at hw
    rcases hw with hw | hw
    · exact iha he (fun t ht => hc t (List.mem_append_left _ ht)) w hw
    · exact ihb he (fun t ht => hc t (List.mem_append_right _ ht)) w hw
  | start | finish | without | nil | ahead => intro w hw; cases hw

/-- **Every token of a conforming tree can stand as one in a text.** -/
theorem Tree.Conforms.lexemes {t : Tree} (h : t.Conforms) (hr : t.rule? ≠ some .strBody) :
    ∀ w ∈ t.tokens, isLexeme w = true := by
  induction h with
  | @token r a b w ha =>
    intro v hv
    have hne : r ≠ .strLit := by
      rintro rfl
      exact ha
    rw [tokens_node hne] at hv
    obtain rfl : v = w := by simpa using hv
    exact (isLexeme_of_allows ha fun h => hr (congrArg some h)).1
  | @node r a b ps kind tight fits parts ih =>
    by_cases hs : r = .strLit
    · subst hs
      obtain ⟨b, -, htok, htext⟩ :=
        (Tree.Is.of_conforms (Conforms.node kind tight fits parts)).strLit_tokens
      intro v hv
      rw [htok, htext] at hv
      obtain rfl := List.mem_singleton.mp hv
      rfl
    · have hkind : r.kind = .plain := by
        rcases kind with h | h
        · exact h
        · cases r <;> first | exact absurd rfl hs | cases h
      rw [tokens_node hs, ← tokensAll_solid]
      refine fits.lexemes (Rule.isLexical_body r hkind) ?_
      intro t ht hn hne
      exact ih t (List.mem_filter.mp ht).1 hn hne

/-- What a list of trees starts with: its first token, and the tree the token is from. -/
structure Tree.Starts (ts : List Tree) (w : List Char) : Prop where
  lexeme : isLexeme w = true
  tree : ∃ t us ws, ts = t :: us ∧ t.tokens = w :: ws ∧ t.isTrivia = false ∧
    (t = .token w ∨ headOf w ≠ .ofElse)

theorem Tree.Starts.append {ts : List Tree} {w : List Char} (h : Starts ts w) (us : List Tree) :
    Starts (ts ++ us) w := by
  obtain ⟨hl, t, vs, ws, rfl, htok, htriv, helse⟩ := h
  exact ⟨hl, t, vs ++ us, ws, rfl, htok, htriv, helse⟩

theorem Tree.Starts.tokens {ts : List Tree} {w : List Char} (h : Starts ts w) :
    ∃ ws, tokensAll ts = w :: ws := by
  obtain ⟨-, t, us, ws, rfl, htok, -⟩ := h
  exact ⟨ws ++ tokensAll us, by rw [tokensAll_cons, htok]; rfl⟩

theorem Tree.starts_token {w : List Char} (h : isLexeme w = true) : Starts [.token w] w :=
  ⟨h, .token w, [], [], rfl, rfl, rfl, .inl rfl⟩

theorem headOf_reserved {w : List Char} (h : w ∈ reserved) : headOf w = .word w := by
  have := headOf_word h (stops_nil isWordChar)
  rwa [List.append_nil] at this

theorem isLexeme_reserved {w : List Char} (h : w ∈ reserved) : isLexeme w = true := by
  have hall : ∀ w ∈ reserved, isLexeme w = true := by decide
  exact hall w h

/-- **What fits an expression starts with a head of the expression**, or there is nothing. -/
theorem Peg.Fits.first_token {e : Peg} {ts : List Tree} (h : e.Fits ts) (he : e.isMarked = true)
    (hl : e.isLexical = true) (hc : ∀ t ∈ ts, ∀ r, t.rule? = some r → (Peg.call r).isMarked = true →
      ∃ w, Starts [t] w ∧ headOf w ∈ r.first) :
    (ts = [] ∧ e.nullable = true) ∨ ∃ w, Starts ts w ∧ headOf w ∈ e.first := by
  induction h with
  | text s =>
    have : headOf (s ++ []) ∈ Peg.first (.text s) := first_text he
    rw [List.append_nil] at this
    exact .inr ⟨s, starts_token hl, this⟩
  | start | finish | without | nil | ahead => exact .inl ⟨rfl, rfl⟩
  | call hr => exact .inr (hc _ (List.mem_singleton.mpr rfl) _ hr he)
  | @seq a b ts us ha hb iha ihb =>
    cases hw : (Peg.seq a b).word? with
    | some w =>
      obtain ⟨rfl, rfl⟩ := Peg.seq.inj (eq_word_of_word? hw)
      have hres : w ∈ reserved := by simpa [isMarked, hw] using he
      obtain rfl := Peg.Fits.ahead_iff.mp ha
      obtain rfl := Peg.Fits.text_iff.mp hb
      refine .inr ⟨w, starts_token (isLexeme_reserved hres), ?_⟩
      rw [headOf_reserved hres]
      exact List.mem_singleton.mpr rfl
    | none =>
      obtain ⟨hla, hlb⟩ := Bool.and_eq_true_iff.mp hl
      have hmark : a.isMarked = true ∧ b.isMarked = true := by simpa [isMarked, hw] using he
      have hfirst : first (.seq a b) = a.first ++ if a.nullable then b.first else [] := by
        rw [first, hw]
      rw [hfirst]
      rcases iha hmark.1 hla (fun t ht => hc t (List.mem_append_left _ ht)) with
        ⟨rfl, hnull⟩ | ⟨w, hs, hh⟩
      · rcases ihb hmark.2 hlb (fun t ht => hc t (List.mem_append_right _ ht)) with
          ⟨rfl, hnull'⟩ | ⟨w, hs, hh⟩
        · exact .inl ⟨rfl, Bool.and_eq_true_iff.mpr ⟨hnull, hnull'⟩⟩
        · exact .inr ⟨w, hs, List.mem_append_right _ (by rw [if_pos hnull]; exact hh)⟩
      · exact .inr ⟨w, hs.append us, List.mem_append_left _ hh⟩
  | left _ ih =>
    rcases ih (Bool.and_eq_true_iff.mp he).1 (Bool.and_eq_true_iff.mp hl).1 hc with
      ⟨rfl, hnull⟩ | ⟨w, hs, hh⟩
    · exact .inl ⟨rfl, Bool.or_eq_true_iff.mpr (.inl hnull)⟩
    · exact .inr ⟨w, hs, List.mem_append_left _ hh⟩
  | right _ ih =>
    rcases ih (Bool.and_eq_true_iff.mp he).2 (Bool.and_eq_true_iff.mp hl).2 hc with
      ⟨rfl, hnull⟩ | ⟨w, hs, hh⟩
    · exact .inl ⟨rfl, Bool.or_eq_true_iff.mpr (.inr hnull)⟩
    · exact .inr ⟨w, hs, List.mem_append_right _ hh⟩
  | within _ ih =>
    rcases ih he hl hc with ⟨rfl, -⟩ | h
    · exact .inl ⟨rfl, rfl⟩
    · exact .inr h
  | @cons a ts us _ _ iha ihb =>
    rcases iha he hl (fun t ht => hc t (List.mem_append_left _ ht)) with ⟨rfl, -⟩ | ⟨w, hs, hh⟩
    · exact ihb he hl hc
    · exact .inr ⟨w, hs.append us, hh⟩
  | more => cases hl

/-- **The first token of a conforming tree has a head of its rule.** -/
theorem Tree.Conforms.first_token {t : Tree} (h : t.Conforms) : ∀ {r : Rule}, t.rule? = some r →
    (Peg.call r).isMarked = true → ∃ w, Starts [t] w ∧ headOf w ∈ r.first := by
  have starts : ∀ {r : Rule} {t : Tree} {w : List Char} {ws : List (List Char)},
      t.rule? = some r → t.tokens = w :: ws → isLexeme w = true → headOf w ∈ r.first →
      ∃ w, Starts [t] w ∧ headOf w ∈ r.first := by
    intro r t w ws hr htok hl hh
    refine ⟨w, ⟨hl, t, [], ws, rfl, htok, ?_, .inr ?_⟩, hh⟩
    · cases t with
      | token | trivia => cases hr
      | node => rfl
    · intro heq
      exact r.else_not_mem_first (heq ▸ hh)
  induction h with
  | @token r a b w ha =>
    intro r' hr hm
    obtain rfl := Option.some.inj hr
    have hne : r ≠ .strLit := by
      rintro rfl
      exact ha
    have hbody : r ≠ .strBody := by
      rintro rfl
      cases hm
    obtain ⟨hl, hh⟩ := isLexeme_of_allows ha hbody
    exact starts rfl (tokens_node hne a b [.token w]) hl hh
  | @node r a b ps kind tight fits parts ih =>
    intro r' hr hm
    obtain rfl := Option.some.inj hr
    by_cases hs : r = .strLit
    · subst hs
      obtain ⟨b, -, htok, htext⟩ :=
        (Tree.Is.of_conforms (Conforms.node kind tight fits parts)).strLit_tokens
      rw [htext] at htok
      exact starts rfl htok rfl (by rw [headOf_mark rfl rfl]; decide)
    · have hkind : r.kind = .plain := by
        rcases kind with h | h
        · exact h
        · cases r <;> first | exact absurd rfl hs | cases h
      obtain ⟨hfirst, hmark⟩ := Rule.first_body r hkind hm
      rcases fits.first_token hmark (Rule.isLexical_body r hkind)
        (fun t ht r hr hm => ih t (List.mem_filter.mp ht).1 (isNode_of_rule hr) hr hm) with
        ⟨-, hnull⟩ | ⟨w, hw, hh⟩
      · have hn := Peg.nullable_body r hnull
        simp only [Peg.isMarked, hn, Bool.not_true, Bool.false_and] at hm
        cases hm
      · obtain ⟨ws, htok⟩ := hw.tokens
        rw [tokensAll_solid, ← tokens_node hs a b] at htok
        exact starts rfl htok hw.lexeme (hfirst _ hh)

end Mt22
