import Mt22.Grammar.Body

/-!
# Classes of tokens

A token is a piece of text that is read as a whole.  Its class can be told from its characters:

* `isName`: an identifier, which is no keyword;
* `isInteger`, `IsFloat`: numbers;
* `isStringBody`: what may stand between the quotes of a string literal.

All other tokens are keywords or marks, and stand for themselves.
-/

namespace Mt22.Token

/-- A character with which an identifier or a keyword starts. -/
def isWordStart (c : Char) : Bool := c.isAlpha || c = '_'

/-- A character of an identifier or a keyword. -/
def isWordChar (c : Char) : Bool := c.isAlphanum || c = '_'

/-- A digit, or a separator between digits. -/
def isDigitChar (c : Char) : Bool := c.isDigit || c = '_'

/-- The keywords, as characters. -/
def reserved : List (List Char) := keywords.map String.toList

/-- An identifier. -/
def isName : List Char → Bool
  | [] => false
  | c :: cs => isWordStart c && cs.all isWordChar && !reserved.contains (c :: cs)

/-- An integer: a single zero, or digits that do not start with a zero. -/
def isInteger : List Char → Bool
  | [] => false
  | c :: cs => if c = '0' then cs.isEmpty else c.isDigit && cs.all isDigitChar

/-- The point of a float and the digits after it. -/
def IsFraction (w : List Char) : Prop := ∃ ds, w = '.' :: ds ∧ ds.all Char.isDigit = true

/-- The exponent of a float: a mark, a sign or none, and digits. -/
def IsExponent (w : List Char) : Prop :=
  ∃ e sign ds, w = e :: (sign ++ ds) ∧ (e = 'e' ∨ e = 'E') ∧
    (sign = [] ∨ sign = ['+'] ∨ sign = ['-']) ∧ ds ≠ [] ∧ ds.all Char.isDigit = true

/-- A float: two of its three parts at least, and not the exponent alone. -/
def IsFloat (w : List Char) : Prop :=
  (∃ i f x, w = i ++ f ++ x ∧ isInteger i = true ∧ IsFraction f ∧ (x = [] ∨ IsExponent x)) ∨
    (∃ i x, w = i ++ x ∧ isInteger i = true ∧ IsExponent x) ∨
    (∃ f x, w = f ++ x ∧ IsFraction f ∧ IsExponent x)

/-- A character that may follow a backslash. -/
def isEscape (c : Char) : Bool := ['b', 'f', 'r', 'n', 't', '\'', '\\', '"'].contains c

/-- A character that stands for itself in a string. -/
def isOrdinary (c : Char) : Bool :=
  c ≠ '"' && c ≠ '\\' && c ≠ '\n' && c ≠ '\r'

/-- What may stand between the quotes of a string: escapes and ordinary characters. -/
def isStringBody : List Char → Bool
  | [] => true
  | '\\' :: c :: s => isEscape c && isStringBody s
  | c :: s => isOrdinary c && isStringBody s

/-! ### Characters -/

theorem isWordStart_or_isDigit {c : Char} (h : isWordChar c = true) :
    isWordStart c = true ∨ c.isDigit = true := by
  simp only [isWordChar, Char.isAlphanum, isWordStart, Bool.or_eq_true, decide_eq_true_eq] at h ⊢
  rcases h with (h | h) | h <;> simp [h]

theorem isWordChar_of_isWordStart {c : Char} (h : isWordStart c = true) : isWordChar c = true := by
  simp only [isWordChar, Char.isAlphanum, isWordStart, Bool.or_eq_true, decide_eq_true_eq] at h ⊢
  rcases h with h | h <;> simp [h]

theorem isWordChar_of_isDigitChar {c : Char} (h : isDigitChar c = true) : isWordChar c = true := by
  simp only [isWordChar, Char.isAlphanum, isDigitChar, Bool.or_eq_true, decide_eq_true_eq] at h ⊢
  rcases h with h | h <;> simp [h]

theorem isWordChar_of_isDigit {c : Char} (h : c.isDigit = true) : isWordChar c = true :=
  isWordChar_of_isDigitChar (by simp [isDigitChar, h])

/-! ### Keywords -/

theorem reserved_isWord : ∀ w ∈ reserved,
    w ≠ [] ∧ w.all isWordChar = true ∧ w.head?.any isWordStart = true := by
  decide

/-- No keyword is the start of another. -/
theorem reserved_prefixFree : ∀ v ∈ reserved, ∀ w ∈ reserved, v <+: w → v = w := by
  decide

/-! ### Strings -/

/-- A unit of a string: an escape, or a character that stands for itself. -/
def IsUnit (u : List Char) : Prop :=
  (∃ c, u = ['\\', c] ∧ isEscape c = true) ∨ ∃ c, u = [c] ∧ isOrdinary c = true

/-- What may stand between quotes is a concatenation of units. -/
theorem isStringBody_iff {s : List Char} :
    isStringBody s = true ↔
      ∃ units : List (List Char), s = units.flatten ∧ ∀ u ∈ units, IsUnit u := by
  constructor
  · intro h
    fun_induction isStringBody s with
    | case1 => exact ⟨[], rfl, nofun⟩
    | case2 c s ih =>
      obtain ⟨hc, hs⟩ := Bool.and_eq_true_iff.mp h
      obtain ⟨units, rfl, hunits⟩ := ih hs
      exact ⟨['\\', c] :: units, rfl, List.forall_mem_cons.mpr ⟨.inl ⟨c, rfl, hc⟩, hunits⟩⟩
    | case3 c s _ ih =>
      obtain ⟨hc, hs⟩ := Bool.and_eq_true_iff.mp h
      obtain ⟨units, rfl, hunits⟩ := ih hs
      exact ⟨[c] :: units, rfl, List.forall_mem_cons.mpr ⟨.inr ⟨c, rfl, hc⟩, hunits⟩⟩
  · rintro ⟨units, rfl, hunits⟩
    induction units with
    | nil => rfl
    | cons u units ih =>
      obtain ⟨hu, hrest⟩ := List.forall_mem_cons.mp hunits
      rw [List.flatten_cons]
      rcases hu with ⟨c, rfl, hc⟩ | ⟨c, rfl, hc⟩
      · exact Bool.and_eq_true_iff.mpr ⟨hc, ih hrest⟩
      · rw [List.singleton_append, isStringBody]
        · exact Bool.and_eq_true_iff.mpr ⟨hc, ih hrest⟩
        · -- a backslash is not ordinary
          rintro d t rfl
          cases hc

end Mt22.Token
