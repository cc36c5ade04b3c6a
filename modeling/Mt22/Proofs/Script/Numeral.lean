import Mt22.Proofs.Number.Rational
import Mt22.Proofs.Script.Contract
import Mt22.Proofs.Script.Variable

/-!
# Numbers in scripts

What becomes of a text of digits and separators is told by its first character, by whether it is a
single zero, and by its number (`Script.outcome_of_digits`).  As the value of a variable it is an
integer, an integer that does not fit, a name, or not readable.  As a dimension it is never a name.

A float is handed on as a decimal that denotes the same number (`Script.float_normalized`).
-/

namespace Mt22

open Mt22.Tree Mt22.Token Mt22.Trivia Mt22.Peg Mt22.Number

/-! ### Results -/

/-- The ways in which making a program of a script of one variable can end. -/
inductive Script.Result where
  | made (p : Program)
  /-- The value of a literal cannot be represented. -/
  | outOfRange (message : String)
  /-- The grammar does not read the script. -/
  | unreadable

namespace Script

variable {s : Script}

/-- The script ends with this result. -/
def Gives (s : Script) : Result → Prop
  | .made p => s.program = .ok p
  | .outOfRange message =>
    ∃ e place span, s.program = .error e ∧ s.diagnose e = .literal message place span
  | .unreadable => ∃ w, s.program = .error (.unreadable w)

theorem Gives.unique {o o' : Result} (h : s.Gives o) (h' : s.Gives o') : o = o' := by
  -- what cannot be read is reported by another part of the program than a literal
  have hissuer : ∀ (w : Attempts) (message : String) (place : Option Location) (span : Option Span),
      s.diagnose (.unreadable w) ≠ .literal message place span := by
    intro w message place span heq
    have hname : readerName = "mt22.lower.literal" := congrArg Diagnostic.issuer heq
    exact absurd hname (by decide)
  cases o with
  | made p =>
    cases o' with
    | made q => exact congrArg _ (Except.ok.inj (h.symm.trans h'))
    | outOfRange m =>
      obtain ⟨e, -, -, he, -⟩ := h'
      cases h.symm.trans he
    | unreadable =>
      obtain ⟨w, hw⟩ := h'
      cases h.symm.trans hw
  | outOfRange m =>
    obtain ⟨e, place, span, he, hd⟩ := h
    cases o' with
    | made q => cases he.symm.trans h'
    | outOfRange m' =>
      obtain ⟨e', place', span', he', hd'⟩ := h'
      obtain rfl := Except.error.inj (he.symm.trans he')
      exact congrArg _ (congrArg Diagnostic.message (hd.symm.trans hd'))
    | unreadable =>
      obtain ⟨w, hw⟩ := h'
      obtain rfl := Except.error.inj (he.symm.trans hw)
      exact absurd hd (hissuer _ _ _ _)
  | unreadable =>
    obtain ⟨w, hw⟩ := h
    cases o' with
    | made q => cases hw.symm.trans h'
    | outOfRange m =>
      obtain ⟨e, place, span, he, hd⟩ := h'
      obtain rfl := Except.error.inj (hw.symm.trans he)
      exact absurd hd (hissuer _ _ _ _)
    | unreadable => rfl

theorem Gives.iff_eq {o o' : Result} (h : s.Gives o) : s.Gives o' ↔ o = o' :=
  ⟨h.unique, fun heq => heq ▸ h⟩

/-- A fault that is reported like one of a literal. -/
theorem gives_outOfRange {f g : Fault} {message : String} (h : s.program = .error (.faulty g))
    (hs : g.Same f) (hlevel : f.level = .error) (hissuer : f.issuer = "mt22.lower.literal")
    (hmessage : f.message = message) : s.Gives (.outOfRange message) := by
  refine ⟨_, (s.diagnose (.faulty g)).location, (s.diagnose (.faulty g)).span, h, ?_⟩
  rw [diagnose, Fault.diagnostic, hs.level, hs.message, hs.issuer, hlevel, hissuer, hmessage]
  rfl

/-- A script with a colon in it cannot be read if no declaration starts it. -/
theorem gives_unreadable (h : Refuses (.call .declaration) (after s.source))
    (hcolon : ':' ∈ s.source) : s.Gives .unreadable := by
  rcases s.parse_cases with hok | ⟨hempty, -⟩ | ⟨w, hw⟩
  · exact absurd hok (not_accepted_of_refuses h)
  · exact absurd (List.all_eq_true.mp hempty ':' hcolon) (by decide)
  · exact ⟨w, by rw [program, hw]; rfl⟩

/-! ### Texts of digits and separators -/

/-- The script that gives a variable this integer as its value. -/
def ofInteger (name w : String) : Script := ofSource name ("x: integer = " ++ w ++ ";")

/-- The script of an array of this length. -/
def ofDimension (name w : String) : Script := ofSource name ("x: array [" ++ w ++ "] of integer;")

end Script

namespace Token

/-- The text starts with a digit that is not zero. -/
def startsNonzero (w : List Char) : Bool := w.head?.any fun c => c.isDigit && c != '0'

/-- The number that the digits of a text denote, whatever stands between them. -/
def digitsNumber (w : List Char) : ℕ := placeValue (w.filter Char.isDigit)

variable {w : String}

theorem digits_cases (hne : w ≠ "") (hw : w.toList.all isDigitChar = true) :
    w = "0" ∨ startsNonzero w.toList = true ∨ w.toList.head? = some '_' ∨
      w.toList.head? = some '0' ∧ w ≠ "0" := by
  by_cases hzero : w = "0"
  · exact .inl hzero
  cases hl : w.toList with
  | nil => exact absurd (String.toList_eq_nil_iff.mp hl) hne
  | cons c cs =>
    rw [hl, List.all_cons, Bool.and_eq_true, isDigitChar, Bool.or_eq_true, decide_eq_true_eq] at hw
    rcases hw.1 with hc | rfl
    · by_cases hc0 : c = '0'
      · exact .inr (.inr (.inr ⟨by rw [hc0]; rfl, hzero⟩))
      · exact .inr (.inl (by simp [startsNonzero, hc, hc0]))
    · exact .inr (.inr (.inl rfl))

theorem isInteger_of_startsNonzero {w : List Char} (h : startsNonzero w = true)
    (hw : w.all isDigitChar = true) : isInteger w = true := by
  cases w with
  | nil => cases h
  | cons c cs =>
    have hc : c.isDigit = true ∧ c ≠ '0' := by simpa [startsNonzero] using h
    rw [List.all_cons, Bool.and_eq_true] at hw
    rw [isInteger, if_neg hc.2, hc.1, hw.2]
    rfl

theorem isName_of_underscore {w : List Char} (h : w.head? = some '_')
    (hw : w.all isDigitChar = true) : isName w = true := by
  cases w with
  | nil => cases h
  | cons c cs =>
    obtain rfl := Option.some.inj h
    have hreserved : ∀ v ∈ reserved, v.head? ≠ some '_' := by decide
    have hcs : cs.all isWordChar = true := List.all_eq_true.mpr fun d hd =>
      isWordChar_of_isDigitChar (List.all_eq_true.mp hw d (List.mem_cons_of_mem _ hd))
    have hnot : '_' :: cs ∉ reserved := fun hmem => hreserved _ hmem rfl
    simp [isName, hcs, hnot, isWordStart]

/-- A token has the number of its digits. -/
theorem denoted_token {w : List Char} (hw : w.all isDigitChar = true) :
    (Tree.node .intLit 0 0 [.token w]).denoted = digitsNumber w := by
  rw [Tree.denoted, digitsNumber, digitsValue_eq_placeValue, Literal.withoutSeparators]
  rw [Tree.text, textAll, Tree.text, textAll, List.append_nil]
  refine congrArg placeValue (List.filter_congr fun c hc => ?_)
  have hc := List.all_eq_true.mp hw c hc
  rw [isDigitChar, Bool.or_eq_true, decide_eq_true_eq] at hc
  rcases hc with hc | rfl
  · rw [hc]
    exact bne_iff_ne.mpr (digit_ne hc rfl)
  · rfl

theorem string_token (r : Rule) (w : String) :
    (Tree.node r 0 0 [.token w.toList]).string = w := by
  simp [Tree.string, Tree.text, textAll]

end Token

namespace Script

variable {w : String}

/-! ### Integers and names -/

/-- The tokens of the script of an integer, where the text is one of them. -/
theorem lays_ofInteger (name : String) (hw : isLexeme w.toList = true) (hslash : w.toList ≠ ['/']) :
    Lays ("x".toList :: ":".toList :: (["integer".toList] ++ "=".toList :: ([w.toList] ++ [";".toList])))
      (ofInteger name w).source [] := by
  have hsource : (ofInteger name w).source = "x: integer = ".toList ++ (w.toList ++ [';']) := by
    simp [ofInteger, ofSource, source]
  rw [hsource]
  exact lays_around ["x".toList, ":".toList, "integer".toList, "=".toList] (by decide)
    (by decide) hw hslash (fun _ => stops_cons rfl)

theorem gives_integer (name : String) (hi : isInteger w.toList = true)
    (hw : w.toList.all isDigitChar = true) : (ofInteger name w).Gives
      (if digitsNumber w.toList < signedLimit then
        .made ⟨[.var ⟨"x", .prim .integer, some (.int (digitsNumber w.toList))⟩]⟩
      else .outOfRange ("Integer literal " ++ w ++ " does not fit in 64 bits.")) := by
  have hlex := (isLexeme_integer hi).1
  have hlays := lays_ofInteger name hlex (by rintro h; rw [h] at hi; cases hi)
  have ht : Grown .intLit (.node .intLit 0 0 [.token w.toList]) [w.toList] := .token hi (by decide)
  obtain ⟨l, hl, hlv⟩ := Expr.grown_integer ht
  obtain ⟨p, hp, hpv⟩ := Expr.grown_literal hl
  obtain ⟨u, hu, huv⟩ := Expr.grown_loosen (j := 0) (k := 7) hp (by decide) (by decide)
  have huv : Expr.ofTree u = Expr.ofPrimary p := huv
  obtain ⟨d, hd, hdv⟩ := VarDecl.grown isName_x Ty.drawn_integer hu
  rw [huv, hpv, hlv, Literal.integer_eq ht.is, denoted_token hw] at hdv
  generalize digitsNumber w.toList = n at hdv ⊢
  by_cases hlt : n < signedLimit
  · rw [if_pos hlt] at hdv ⊢
    have hok : VarDecl.ofGroup d = .ok [⟨"x", .prim .integer, some (.int n)⟩] := hdv
    exact program_of_variable hd hlays hok
  · rw [if_neg hlt] at hdv ⊢
    have herror : VarDecl.ofGroup d = .error (.integerRange _) := hdv
    obtain ⟨g, hg, hsame⟩ := fault_of_variable hd hlays herror
    refine gives_outOfRange hg hsame rfl rfl ?_
    show "Integer literal " ++ Tree.string _ ++ _ = _
    rw [string_token]

theorem gives_name (name : String) (hn : isName w.toList = true) :
    (ofInteger name w).Gives (.made ⟨[.var ⟨"x", .prim .integer, some (.id w)⟩]⟩) := by
  refine program_of_value isName_x Ty.drawn_integer (.id hn) ?_
  exact lays_ofInteger name (isLexeme_name hn).1 (by rintro h; rw [h] at hn; cases hn)

/-! ### A zero that is followed by more -/

/-- A zero that is followed by more is no value. -/
theorem unreadable_ofInteger (name : String) {c : Char} {cs : List Char}
    (hw : w.toList = '0' :: c :: cs) (hc : isDigitChar c = true) :
    (ofInteger name w).Gives .unreadable := by
  have hsource : (ofInteger name w).source = "x: integer = ".toList ++ ('0' :: c :: (cs ++ [';'])) := by
    simp [ofInteger, ofSource, source, hw]
  have hl : Lays (["x".toList, ":".toList] ++ ["integer".toList, "=".toList])
      (ofInteger name w).source ('0' :: c :: (cs ++ [';'])) := by
    rw [hsource]
    exact lays_of_dropTokens (r := []) (by decide) _
  obtain ⟨m, hname, htype⟩ := lays_append.mp hl
  obtain ⟨y, hy, -⟩ := Ty.drawn_integer
  obtain ⟨hafter, hmark⟩ := headOf_wordChar (isWordChar_of_isDigitChar hc) (cs ++ [';'])
  refine gives_unreadable (refuses_variable isName_x hname ?_ ?_) (by rw [hsource]; simp)
  · rw [htype.headOf_cons (by decide)]
    decide
  · refine refuses_value hy htype (consumes_zero_value hc _) ?_ ?_
    · rw [hafter]
      exact hmark _
    · rw [hafter]
      exact hmark _

/-! ### Dimensions -/

theorem source_ofDimension (name w : String) : (ofDimension name w).source =
    "x: array [".toList ++ (w.toList ++ "] of integer;".toList) := by
  simp [ofDimension, ofSource, source]

/-- The tokens of the script of a dimension. -/
theorem lays_ofDimension (name : String) (hi : isInteger w.toList = true) :
    Lays (["x", ":", "array", "["].map String.toList ++
      w.toList :: ["]", "of", "integer", ";"].map String.toList) (ofDimension name w).source [] := by
  rw [source_ofDimension]
  exact lays_around _ (by decide) (by decide) (isLexeme_integer hi).1
    (by rintro h; rw [h] at hi; cases hi) (fun _ => stops_cons rfl)

theorem gives_dimension (name : String) (hi : isInteger w.toList = true)
    (hw : w.toList.all isDigitChar = true) : (ofDimension name w).Gives
      (if digitsNumber w.toList < unsignedLimit then
        .made ⟨[.var ⟨"x", .array [digitsNumber w.toList] .integer, none⟩]⟩
      else .outOfRange ("Array dimension " ++ w ++ " is too large.")) := by
  have hlays := lays_ofDimension name hi
  have ht : Grown .intLit (.node .intLit 0 0 [.token w.toList]) [w.toList] := .token hi (by decide)
  obtain ⟨y, hy, hyv⟩ := Ty.grown_array .integer (.cons ht .nil) (by simp)
  obtain ⟨d, hd, hdv⟩ := VarDecl.grown_bare isName_x hy
  rw [hyv, List.mapM_cons, Literal.dimension_eq ht.is, denoted_token hw] at hdv
  generalize digitsNumber w.toList = n at hdv ⊢
  by_cases hlt : n < unsignedLimit
  · rw [if_pos hlt] at hdv ⊢
    have hok : VarDecl.ofGroup d = .ok [⟨"x", .array [n] .integer, none⟩] := hdv
    exact program_of_variable hd hlays hok
  · rw [if_neg hlt] at hdv ⊢
    have herror : VarDecl.ofGroup d = .error (.dimensionRange _) := hdv
    obtain ⟨g, hg, hsame⟩ := fault_of_variable hd hlays herror
    refine gives_outOfRange hg hsame rfl rfl ?_
    show "Array dimension " ++ Tree.string _ ++ _ = _
    rw [string_token]

/-- A text that is no integer is no dimension: a name is none, and after a zero the bracket is
missing. -/
theorem unreadable_ofDimension (name : String) {c : Char} {cs : List Char}
    (hw : w.toList = '_' :: cs ∨ w.toList = '0' :: c :: cs ∧ isDigitChar c = true) :
    (ofDimension name w).Gives .unreadable := by
  have hl : Lays (["x".toList, ":".toList] ++ ["array".toList, "[".toList])
      (ofDimension name w).source (w.toList ++ "] of integer;".toList) := by
    rw [source_ofDimension]
    exact lays_of_dropTokens (r := []) (by decide) _
  have hdims : Refuses (items [.call .dimensions, "]", word "of", .call .primType])
      (after (w.toList ++ "] of integer;".toList)) := by
    rcases hw with hw | ⟨hw, hc⟩
    · obtain ⟨hafter, -⟩ := headOf_wordChar (c := '_') rfl (cs ++ "] of integer;".toList)
      refine (refuses_of_head rfl (piece?_after _) ?_).seq
      show headOf _ ∉ [Head.digit]
      rw [hw, List.cons_append, hafter, headOf, if_pos (show isWordStart '_' = true from rfl)]
      split <;> simp
    · obtain ⟨hafter, hmark⟩ :=
        headOf_wordChar (isWordChar_of_isDigitChar hc) (cs ++ "] of integer;".toList)
      rw [hw, List.cons_append, List.cons_append]
      have hlist : Rule.dimensions.Consumes
          (after ('0' :: c :: (cs ++ "] of integer;".toList))) (c :: (cs ++ "] of integer;".toList)) := by
        refine .alone rfl rfl (by decide) (consumes_zero _) .nil (.star_nil (Refuses.seq ?_) rfl)
        refine refuses_mark rfl rfl ?_
        rw [hafter]
        exact hmark _
      obtain ⟨_, _, -, hread⟩ := hlist
      refine hread.refuses_seq (Refuses.seq (refuses_mark rfl rfl ?_))
      rw [hafter]
      exact hmark _
  obtain ⟨m, hname, htype⟩ := lays_append.mp hl
  have hhead := htype.headOf_cons (by decide)
  refine gives_unreadable (refuses_variable isName_x hname ?_ (.seq ?_))
    (by simp [source_ofDimension])
  · rw [hhead]
    decide
  · obtain ⟨s', hs, hb, hbracket⟩ := htype
    have harray : Refuses (.call .arrayType) (after m) :=
      .call rfl ((Reads.word (by decide) ⟨s', hs, hb, rfl⟩).refuses_seq
        ((Reads.text hbracket).refuses_seq hdims))
    have hother : ∀ r ∈ [Rule.primType, .kwAuto], Refuses (.call r) (after m) := by
      have hheads : ∀ r ∈ [Rule.primType, .kwAuto], (Peg.call r).isHeaded = true ∧
          headOf "array".toList ∉ r.first := by decide
      intro r hr
      refine refuses_of_head (hheads r hr).1 (piece?_after m) ?_
      rw [hhead]
      exact (hheads r hr).2
    exact .call rfl (.choice (hother _ (by simp)) (.choice (hother _ (by simp)) harray))

/-- **Integers and dimensions.**  Let a text be made of digits and separators, and let `v` be the
number of its digits.  As the value of a variable it is the integer `v` exactly if it is a single
zero, or starts with another digit and `v` is below `2 ^ 63`; it is out of range if `v` is not; it is a
name exactly if it starts with a separator, and cannot be read exactly if it is a zero followed by
more.  As a dimension it is `v` or out of range, with the limit `2 ^ 64`, or cannot be read. -/
theorem outcome_of_digits (name w : String) (hne : w ≠ "") (hw : w.toList.all isDigitChar = true) :
    ((ofInteger name w).Gives
        (.made ⟨[.var ⟨"x", .prim .integer, some (.int (digitsNumber w.toList))⟩]⟩) ↔
      w = "0" ∨ startsNonzero w.toList = true ∧ digitsNumber w.toList ≤ 2 ^ 63 - 1) ∧
    ((ofInteger name w).Gives (.outOfRange ("Integer literal " ++ w ++ " does not fit in 64 bits.")) ↔
      startsNonzero w.toList = true ∧ 2 ^ 63 - 1 < digitsNumber w.toList) ∧
    ((ofInteger name w).Gives (.made ⟨[.var ⟨"x", .prim .integer, some (.id w)⟩]⟩) ↔
      w.toList.head? = some '_') ∧
    ((ofInteger name w).Gives .unreadable ↔ w.toList.head? = some '0' ∧ w ≠ "0") ∧
    ((ofDimension name w).Gives
        (.made ⟨[.var ⟨"x", .array [digitsNumber w.toList] .integer, none⟩]⟩) ↔
      w = "0" ∨ startsNonzero w.toList = true ∧ digitsNumber w.toList ≤ 2 ^ 64 - 1) ∧
    ((ofDimension name w).Gives (.outOfRange ("Array dimension " ++ w ++ " is too large.")) ↔
      startsNonzero w.toList = true ∧ 2 ^ 64 - 1 < digitsNumber w.toList) ∧
    ((ofDimension name w).Gives .unreadable ↔ ¬ (w = "0" ∨ startsNonzero w.toList = true)) := by
  rcases digits_cases hne hw with rfl | hstart | hstart | ⟨hstart, hmore⟩
  · -- a single zero
    have hinteger := gives_integer name (w := "0") rfl rfl
    have hdimension := gives_dimension name (w := "0") rfl rfl
    have hzero : digitsNumber "0".toList = 0 := rfl
    rw [hzero] at hinteger hdimension ⊢
    rw [if_pos (by decide)] at hinteger hdimension
    simp only [hinteger.iff_eq, hdimension.iff_eq]
    simp [startsNonzero]
  · -- another digit comes first, and the number decides
    have hi := isInteger_of_startsNonzero hstart hw
    have hinteger := gives_integer name hi hw
    have hdimension := gives_dimension name hi hw
    have hfirst : w.toList.head? ≠ some '_' ∧ w.toList.head? ≠ some '0' := by
      constructor
      · intro h
        rw [startsNonzero, h] at hstart
        cases hstart
      · intro h
        rw [startsNonzero, h] at hstart
        cases hstart
    have hzero : w ≠ "0" := by
      rintro rfl
      cases hstart
    generalize digitsNumber w.toList = v at hinteger hdimension ⊢
    have hlimits : (v ≤ 2 ^ 63 - 1 ↔ v < signedLimit) ∧ (2 ^ 63 - 1 < v ↔ ¬ v < signedLimit) ∧
        (v ≤ 2 ^ 64 - 1 ↔ v < unsignedLimit) ∧ (2 ^ 64 - 1 < v ↔ ¬ v < unsignedLimit) := by
      simp only [signedLimit, unsignedLimit]
      omega
    rw [hlimits.1, hlimits.2.1, hlimits.2.2.1, hlimits.2.2.2]
    simp only [hinteger.iff_eq, hdimension.iff_eq, hstart, hfirst, hzero]
    by_cases hs : v < signedLimit <;> by_cases hu : v < unsignedLimit <;> simp [hs, hu]
  · -- a separator comes first
    have hn := isName_of_underscore hstart hw
    have hname := gives_name name hn
    obtain ⟨cs, hcs⟩ := List.head?_eq_some_iff.mp hstart
    have hdimension := unreadable_ofDimension name (c := '0') (.inl hcs)
    have hzero : w ≠ "0" := by
      rintro rfl
      cases hstart
    simp only [hname.iff_eq, hdimension.iff_eq]
    simp [startsNonzero, hstart, hzero]
  · -- a zero that is followed by more
    obtain ⟨cs, hcs⟩ := List.head?_eq_some_iff.mp hstart
    cases cs with
    | nil => exact absurd (String.toList_injective hcs) hmore
    | cons c cs =>
      have hc : isDigitChar c = true := List.all_eq_true.mp hw c (by simp [hcs])
      have hinteger := unreadable_ofInteger name hcs hc
      have hdimension := unreadable_ofDimension name (.inr ⟨hcs, hc⟩)
      simp only [hinteger.iff_eq, hdimension.iff_eq]
      simp [startsNonzero, hstart, hmore]

/-- One more than the largest integer is a dimension.  A separator makes a name at the start, and
after a zero it is not read. -/
theorem outcome_of_digits_limit :
    (ofInteger "a" "9_223_372_036_854_775_808").Gives (.outOfRange
      ("Integer literal " ++ "9_223_372_036_854_775_808" ++ " does not fit in 64 bits.")) ∧
    (ofDimension "a" "9_223_372_036_854_775_808").Gives
      (.made ⟨[.var ⟨"x", .array [9223372036854775808] .integer, none⟩]⟩) ∧
    (ofInteger "a" "_0").Gives (.made ⟨[.var ⟨"x", .prim .integer, some (.id "_0")⟩]⟩) ∧
    (ofInteger "a" "0_").Gives .unreadable := by
  have hnumber : digitsNumber "9_223_372_036_854_775_808".toList = 9223372036854775808 := by
    decide +kernel
  have hlimit := outcome_of_digits "a" "9_223_372_036_854_775_808" (by decide) (by decide)
  rw [hnumber] at hlimit
  refine ⟨hlimit.2.1.mpr ⟨by decide, by norm_num⟩,
    hlimit.2.2.2.2.1.mpr (.inr ⟨by decide, by norm_num⟩),
    (outcome_of_digits "a" "_0" (by decide) (by decide)).2.2.1.mpr (by decide),
    (outcome_of_digits "a" "0_" (by decide) (by decide)).2.2.2.1.mpr ⟨by decide, by decide⟩⟩

/-! ### Floats -/

/-- What the rule of floats reads is one token of its class. -/
theorem float_of_read {u : List Char} {ts : List Tree} (h : Rule.floatLit.read u = .ok ts) :
    ∃ n, ts = [n] ∧ Is .floatLit n ∧ n.text <+: u := by
  obtain ⟨c, hreads⟩ := Rule.read_eq_ok_iff.mp h
  have htext := hreads.textAll_rest
  cases hreads with
  | @call _ _ _ _ parts hb =>
    have hfloat : IsFloat (textAll parts) := float_of_ends hb.ends
    refine ⟨.node .floatLit 0 c.offset [.token (textAll parts)], rfl, ⟨rfl, .token hfloat⟩, c.rest, ?_⟩
    rw [Mode.textAll_leave] at htext
    rw [text_node, textAll_cons, textAll_nil, List.append_nil]
    exact htext

/-- **Floats are handed on as decimals.**  The text that is read of a float is digits with at most one
point and an exponent or none, with a digit before the exponent, and denotes the number of the float;
so does the decimal that is rounded to its value.  No script is refused for a float that is no
number. -/
theorem float_normalized :
    (∀ (u : List Char) (ts : List Tree), Rule.floatLit.read u = .ok ts →
      ∃ n d, ts = [n] ∧ n.text <+: u ∧
        IsDecimal (Literal.withLeadingZero (Literal.withoutSeparators n.text)) ∧
        rationalOf (Literal.withLeadingZero (Literal.withoutSeparators n.text)) = rationalOf n.text ∧
        Decimal.read? (Literal.withLeadingZero (Literal.withoutSeparators n.text)) = some d ∧
        d.value = rationalOf n.text ∧ Literal.float n = .ok (d.toBinary64 false)) ∧
    ∀ (s : Script) (n : Tree), s.program ≠ .error (.faulty (.notANumber n)) := by
  constructor
  · intro u ts h
    obtain ⟨n, rfl, hn, hprefix⟩ := float_of_read h
    obtain ⟨hdecimal, hsame, d, hd, hvalue⟩ := Literal.normalized_float (hn.allows_text rfl)
    exact ⟨n, d, rfl, hprefix, hdecimal, hsame, hd, hvalue, Literal.float_of_read? hn hd⟩
  · intro s n h
    obtain ⟨t, ht, hf⟩ := program_eq_faulty_iff.mp h
    have his := is_of_parse ht
    have hblames : Blames (Program.ofTree t) t.Has := his.conforms.settled his.rule
    rw [hf] at hblames
    have hhas : t.Has (.notANumber n) := hblames
    cases hhas.isOfValue

/-- A float without a digit before its exponent is given one, and separators are dropped. -/
theorem float_normalized_bare :
    (∃ n d, Rule.floatLit.read ".e3;".toList = .ok [n] ∧ n.text = ".e3".toList ∧
      Decimal.read? "0.e3".toList = some d ∧ d.value = rationalOf ".e3".toList) ∧
    ∃ n d, Rule.floatLit.read "1_2_.5e+3".toList = .ok [n] ∧ n.text = "1_2_.5e+3".toList ∧
      Decimal.read? "12.5e+3".toList = some d ∧ d.value = rationalOf "1_2_.5e+3".toList := by
  have hread : ∀ u t r : String, ((Rule.floatLit.read u.toList).toOption.any fun ts =>
      textAll ts = t.toList) = true →
      Literal.withLeadingZero (Literal.withoutSeparators t.toList) = r.toList →
      ∃ n d, Rule.floatLit.read u.toList = .ok [n] ∧ n.text = t.toList ∧
        Decimal.read? r.toList = some d ∧ d.value = rationalOf t.toList := by
    intro u t r h hr
    cases hok : Rule.floatLit.read u.toList with
    | error e => rw [hok] at h; cases h
    | ok ts =>
      obtain ⟨n, d, rfl, -, -, -, hd, hvalue, -⟩ := float_normalized.1 _ _ hok
      rw [hok] at h
      have htext : n.text = t.toList := by simpa [textAll, Except.toOption] using h
      rw [htext] at hd hvalue
      exact ⟨n, d, rfl, htext, hr ▸ hd, hvalue⟩
  exact ⟨hread ".e3;" ".e3" "0.e3" (by decide +kernel) (by decide),
    hread "1_2_.5e+3" "1_2_.5e+3" "12.5e+3" (by decide +kernel) (by decide)⟩

end Script

end Mt22
