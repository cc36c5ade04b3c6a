import Mt22.Proofs.Parsing.Operand

/-!
# The tokens that rules read

All tokens of a node are read by its rule and by those that it calls, directly or not.  So what holds
of the texts and the token classes of a set of rules that calls no others holds of all tokens of their
nodes (`Tree.Is.forall_tokens`).

* `Rule.speaks_plain`: a token that is no string contains no white space, no quote, and neither a
  slash nor a brace unless it is one.
* `Rule.speaks_header`: no token of the header of a function is an opening brace.
* `Rule.speaks_value`: no token of a target or a value is `=`.
-/

namespace Mt22

open Mt22.Tree Mt22.Token Mt22.Trivia

/-- The texts that an expression reads, lookahead apart. -/
def Peg.texts : Peg → List (List Char)
  | text s => [s]
  | seq a b | choice a b => a.texts ++ b.texts
  | opt a | star a | more a => a.texts
  | _ => []

/-- A token of trees that fit an expression is one of its texts, or a token of a node. -/
theorem Peg.Fits.mem_tokensAll {e : Peg} {ts : List Tree} (h : e.Fits ts) :
    ∀ w ∈ tokensAll ts, w ∈ e.texts ∨ ∃ t ∈ ts, t.isNode = true ∧ w ∈ t.tokens := by
  induction h with
  | text s =>
    intro w hw
    exact .inl (List.mem_singleton.mpr (by simpa using hw))
  | call hr =>
    intro w hw
    exact .inr ⟨_, List.mem_singleton_self _, isNode_of_rule hr, by simpa using hw⟩
  | seq _ _ iha ihb =>
    intro w hw
    rw [tokensAll_append, List.mem_append] at hw
    rcases hw with hw | hw
    · rcases iha w hw with hw | ⟨t, ht, hn, hw⟩
      · exact .inl (List.mem_append_left _ hw)
      · exact .inr ⟨t, List.mem_append_left _ ht, hn, hw⟩
    · rcases ihb w hw with hw | ⟨t, ht, hn, hw⟩
      · exact .inl (List.mem_append_right _ hw)
      · exact .inr ⟨t, List.mem_append_right _ ht, hn, hw⟩
  | left _ ih => exact fun w hw => (ih w hw).imp_left (List.mem_append_left _)
  | right _ ih => exact fun w hw => (ih w hw).imp_left (List.mem_append_right _)
  | within _ ih => exact ih
  | more _ ih => exact ih
  | cons _ _ iha ihb =>
    intro w hw
    rw [tokensAll_append, List.mem_append] at hw
    rcases hw with hw | hw
    · rcases iha w hw with hw | ⟨t, ht, hn, hw⟩
      · exact .inl hw
      · exact .inr ⟨t, List.mem_append_left _ ht, hn, hw⟩
    · rcases ihb w hw with hw | ⟨t, ht, hn, hw⟩
      · exact .inl hw
      · exact .inr ⟨t, List.mem_append_right _ ht, hn, hw⟩
  | start | finish | without | nil | ahead => intro w hw; cases hw

/-- The rules of a set call no others, and what they read as a token is of a kind. -/
structure Rule.Speaks (R : Rule → Bool) (Q : List Char → Prop) : Prop where
  body : ∀ r, R r = true → r.kind = .plain →
    (∀ q ∈ r.body.calls, R q = true) ∧ ∀ w ∈ r.body.texts, Q w
  token : ∀ r w, R r = true → r.Allows w → Q w
  string : R .strLit = true → ∀ b, isStringBody b = true → Q ('"' :: (b ++ ['"']))

/-- **What holds of all that a set of rules reads holds of the tokens of their nodes.** -/
theorem Tree.Is.forall_tokens {R : Rule → Bool} {Q : List Char → Prop} (hs : Rule.Speaks R Q)
    {r : Rule} {t : Tree} (h : Is r t) (hr : R r = true) : ∀ w ∈ t.tokens, Q w := by
  obtain ⟨hrule, hc⟩ := h
  induction hc generalizing r with
  | @token r' a b v ha =>
    obtain rfl := Option.some.inj hrule
    have hne : r' ≠ .strLit := by
      rintro rfl
      exact ha
    intro w hw
    rw [tokens_node hne] at hw
    obtain rfl : w = v := by simpa using hw
    exact hs.token r' w hr ha
  | @node r' a b ps kind tight fits parts ih =>
    obtain rfl := Option.some.inj hrule
    intro w hw
    by_cases hstr : r' = .strLit
    · subst hstr
      obtain ⟨b, hb, htok, htext⟩ := (Is.of_conforms (.node kind tight fits parts)).strLit_tokens
      rw [htok, htext] at hw
      rw [List.mem_singleton.mp hw]
      exact hs.string hr b hb
    · have hkind : r'.kind = .plain := by
        rcases kind with h | h
        · exact h
        · exact absurd (Rule.eq_strLit_of_compound h) hstr
      obtain ⟨hcalls, htexts⟩ := hs.body r' hr hkind
      rw [tokens_node hstr, ← tokensAll_solid] at hw
      rcases fits.mem_tokensAll w hw with hw | ⟨t, ht, hn, hw⟩
      · exact htexts w hw
      · cases t with
        | token | trivia => cases hn
        | node q i j qs =>
          exact ih _ (List.mem_filter.mp ht).1 hn (hcalls q (fits.mem_calls _ ht q rfl)) rfl w hw

/-! ### Characters of tokens -/

namespace Token

/-- A character of names and numbers. -/
def isClassChar (c : Char) : Bool := isWordChar c || ['.', '+', '-'].contains c

theorem all_isClassChar_of_digits {ds : List Char} (h : ds.all Char.isDigit = true) :
    ds.all isClassChar = true :=
  List.all_eq_true.mpr fun c hc => by
    rw [isClassChar, isWordChar_of_isDigit (List.all_eq_true.mp h c hc), Bool.true_or]

theorem all_isClassChar_of_words {w : List Char} (h : w.all isWordChar = true) :
    w.all isClassChar = true :=
  List.all_eq_true.mpr fun c hc => by rw [isClassChar, List.all_eq_true.mp h c hc, Bool.true_or]

theorem all_isClassChar_of_isInteger {w : List Char} (h : isInteger w = true) :
    w.all isClassChar = true := by
  refine all_isClassChar_of_words (List.all_eq_true.mpr fun c hc => isWordChar_of_isDigitChar ?_)
  cases w with
  | nil => cases h
  | cons d ds =>
    rw [isInteger] at h
    split at h
    · next hd =>
      rw [List.isEmpty_iff.mp h, List.mem_singleton] at hc
      rw [hc, hd]
      rfl
    · obtain ⟨hd, hds⟩ := Bool.and_eq_true_iff.mp h
      rcases List.mem_cons.mp hc with rfl | hc
      · rw [isDigitChar, hd, Bool.true_or]
      · exact List.all_eq_true.mp hds c hc

theorem all_isClassChar_of_isFraction {w : List Char} (h : IsFraction w) :
    w.all isClassChar = true := by
  obtain ⟨ds, rfl, hds⟩ := h
  rw [List.all_cons, all_isClassChar_of_digits hds]
  rfl

theorem all_isClassChar_of_isExponent {w : List Char} (h : IsExponent w) :
    w.all isClassChar = true := by
  obtain ⟨e, sign, ds, rfl, he, hsign, -, hds⟩ := h
  have hmark : isClassChar e = true := by rcases he with rfl | rfl <;> rfl
  have hs : sign.all isClassChar = true := by rcases hsign with rfl | rfl | rfl <;> rfl
  rw [List.all_cons, List.all_append, hmark, hs, all_isClassChar_of_digits hds]
  rfl

theorem all_isClassChar_of_isFloat {w : List Char} (h : IsFloat w) : w.all isClassChar = true := by
  rcases h with ⟨i, f, x, rfl, hi, hf, hx⟩ | ⟨i, x, rfl, hi, hx⟩ | ⟨f, x, rfl, hf, hx⟩
  · have hx : x.all isClassChar = true := by
      rcases hx with rfl | hx
      · rfl
      · exact all_isClassChar_of_isExponent hx
    rw [List.all_append, List.all_append, all_isClassChar_of_isInteger hi,
      all_isClassChar_of_isFraction hf, hx]
    rfl
  · rw [List.all_append, all_isClassChar_of_isInteger hi, all_isClassChar_of_isExponent hx]
    rfl
  · rw [List.all_append, all_isClassChar_of_isFraction hf, all_isClassChar_of_isExponent hx]
    rfl

end Token

/-- Names and numbers consist of their characters. -/
theorem Rule.Allows.all_isClassChar {r : Rule} {w : List Char} (h : r.Allows w)
    (hr : r ≠ .strBody) : w.all isClassChar = true := by
  cases r with
  | identifier => exact all_isClassChar_of_words (isName_all h)
  | intLit => exact all_isClassChar_of_isInteger h
  | floatLit => exact all_isClassChar_of_isFloat h
  | strBody => exact absurd rfl hr
  | _ => exact False.elim h

/-- A token of a class is none that has another character. -/
theorem Rule.Allows.ne {r : Rule} {w : List Char} (h : r.Allows w) (hr : r ≠ .strBody) {c : Char}
    (hc : isClassChar c = false) : w ≠ [c] := by
  rintro rfl
  have hall := h.all_isClassChar hr
  rw [List.all_cons, hc] at hall
  cases hall

namespace Token

/-- A string with its quotes. -/
def IsQuoted (w : List Char) : Prop := ∃ b, isStringBody b = true ∧ w = '"' :: (b ++ ['"'])

/-- A character that stands in a token among others, strings apart. -/
def isInner (c : Char) : Bool := !isSpace c && c ∉ ['/', '"', '\x7b']

/-- A token that is no string: a slash or a brace stands alone. -/
def isPlain (w : List Char) : Bool := w = ['/'] || w = ['\x7b'] || w.all isInner

theorem isPlain_cases {w : List Char} (h : isPlain w = true) : w = ['/'] ∨ w = ['\x7b'] ∨
    ∀ c ∈ w, isSpace c = false ∧ c ≠ '/' ∧ c ≠ '"' ∧ c ≠ '\x7b' := by
  simpa [isPlain, isInner, or_assoc] using h

/-- A token with another character than a slash and a brace in it has neither of them. -/
theorem inner_of_mem {w : List Char} {c : Char} (h : isPlain w = true) (hc : c ∈ w)
    (hslash : c ≠ '/') (hbrace : c ≠ '\x7b') :
    ∀ d ∈ w, isSpace d = false ∧ d ≠ '/' ∧ d ≠ '"' ∧ d ≠ '\x7b' := by
  rcases isPlain_cases h with rfl | rfl | hinner
  · exact absurd (List.mem_singleton.mp hc) hslash
  · exact absurd (List.mem_singleton.mp hc) hbrace
  · exact hinner

/-- A token with a brace in it is the brace. -/
theorem eq_brace_of_isPlain {w p q : List Char} (h : isPlain w = true)
    (hw : w = p ++ '\x7b' :: q) : p = [] ∧ q = [] := by
  rcases isPlain_cases h with rfl | rfl | hinner
  · have hmem : '\x7b' ∈ ['/'] := by
      rw [hw]
      simp
    exact absurd hmem (by decide)
  · cases p with
    | nil => exact ⟨rfl, (List.cons.inj hw).2.symm⟩
    | cons d p => simp at hw
  · exact absurd rfl (hinner '\x7b' (by simp [hw])).2.2.2

theorem isInner_of_isClassChar {c : Char} (h : isClassChar c = true) : isInner c = true := by
  have hne : ∀ d : Char, isClassChar d = false → c ≠ d := by
    rintro d hd rfl
    rw [hd] at h
    cases h
  have hspace : isSpace c = false := by
    simp only [isSpace, hne ' ' rfl, hne '\t' rfl, hne '\r' rfl, hne '\n' rfl, hne '\x0c' rfl,
      decide_false, Bool.or_self]
  simp [isInner, hspace, hne '/' rfl, hne '"' rfl, hne '\x7b' rfl]

end Token

/-! ### Vocabularies -/

namespace Rule

/-- The rules that what stands before the body of a function is made of. -/
def isOfHeader (r : Rule) : Bool :=
  r ∈ [.identifier, .funcType, .kwVoid, .varType, .primType, .kwInteger, .kwFloat, .kwBoolean,
    .kwString, .kwAuto, .arrayType, .dimensions, .intLit, .paramList, .paramDecl, .kwInherit, .kwOut]

/-- The rules that targets and values are made of. -/
def isOfValue (r : Rule) : Bool := (r = .lhs || r.isOfExpression) && r ≠ .strBody

/-- The rules of a set call no others, and the texts that they read pass a test. -/
def isClosed (R : Rule → Bool) (test : List Char → Bool) : Bool :=
  all.all fun r =>
    !(R r && decide (r.kind = .plain)) || (r.body.calls.all R && r.body.texts.all test)

theorem body_of_isClosed {R : Rule → Bool} {test : List Char → Bool}
    (h : isClosed R test = true) : ∀ r, R r = true → r.kind = .plain →
      (∀ q ∈ r.body.calls, R q = true) ∧ ∀ w ∈ r.body.texts, test w = true := by
  intro r hr hk
  have hbody := List.all_eq_true.mp h r r.mem_all
  rw [hr, decide_eq_true hk, Bool.and_self, Bool.not_true, Bool.false_or, Bool.and_eq_true] at hbody
  exact ⟨List.all_eq_true.mp hbody.1, List.all_eq_true.mp hbody.2⟩

theorem speaks_plain : Speaks (· ≠ .strBody) fun w => IsQuoted w ∨ Token.isPlain w = true where
  body r hr hk := by
    have hclosed : isClosed (· ≠ .strBody) Token.isPlain = true := by decide +kernel
    obtain ⟨hcalls, htexts⟩ := body_of_isClosed hclosed r hr hk
    exact ⟨hcalls, fun w hw => .inr (htexts w hw)⟩
  token r w hr h := by
    have hall := List.all_eq_true.mp (h.all_isClassChar (of_decide_eq_true hr))
    have hinner : w.all isInner = true :=
      List.all_eq_true.mpr fun c hc => isInner_of_isClassChar (hall c hc)
    exact .inr (by rw [Token.isPlain, hinner, Bool.or_true])
  string _ b hb := .inl ⟨b, hb, rfl⟩

theorem speaks_header : Speaks isOfHeader (· ≠ ['\x7b']) where
  body r hr hk := by
    have hclosed : isClosed isOfHeader (· ≠ ['\x7b']) = true := by decide +kernel
    obtain ⟨hcalls, htexts⟩ := body_of_isClosed hclosed r hr hk
    exact ⟨hcalls, fun w hw => of_decide_eq_true (htexts w hw)⟩
  token r w hr h := h.ne (by rintro rfl; cases hr) rfl
  string h := by cases h

theorem speaks_value : Speaks isOfValue (· ≠ ['=']) where
  body r hr hk := by
    have hclosed : isClosed isOfValue (· ≠ ['=']) = true := by decide +kernel
    obtain ⟨hcalls, htexts⟩ := body_of_isClosed hclosed r hr hk
    exact ⟨hcalls, fun w hw => of_decide_eq_true (htexts w hw)⟩
  token r w hr h := h.ne (by rintro rfl; cases hr) rfl
  string _ b _ h := by simp at h

end Rule

end Mt22
