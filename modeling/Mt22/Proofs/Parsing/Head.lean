import Mt22.Proofs.Parsing.Sound

/-!
# What a reading starts with

The first token of a text is known by its **head**: a keyword, a name, a digit, some other
character, or the end of the text.  An expression that matches a text without trivia at its start
has read nothing, or the head of the text is one of the expression (`first_of_matches`).  Since every
reading ends, an expression which is not nullable refuses a text with another head
(`refuses_of_head`).

The heads of rules are given by a table, `Rule.first`, which the bodies of the rules agree with.
-/

namespace Mt22

open Mt22.Tree Mt22.Token

/-- What a text without trivia at its start starts with. -/
inductive Head where
  | finish
  | word (w : List Char)
  | name
  | digit
  | mark (c : Char)
deriving DecidableEq

/-- The head of a text. -/
def headOf : List Char → Head
  | [] => .finish
  | c :: s =>
    if isWordStart c then
      if lead (c :: s) ∈ reserved then .word (lead (c :: s)) else .name
    else if c.isDigit then .digit else .mark c

/-! ### Heads of texts -/

theorem headOf_mark {c : Char} (hw : isWordStart c = false) (hd : c.isDigit = false)
    (s : List Char) : headOf (c :: s) = .mark c := by
  simp [headOf, hw, hd]

theorem isWordStart_of_isDigit {c : Char} (h : c.isDigit = true) : isWordStart c = false := by
  have hnine : c.val.toNat ≤ 57 := by
    have h : (decide (c.val ≥ '0'.val) && decide (c.val ≤ '9'.val)) = true := h
    rw [Bool.and_eq_true, decide_eq_true_eq, decide_eq_true_eq] at h
    exact UInt32.le_iff_toNat_le.mp h.2
  have hupper : c.isUpper = false := by
    refine decide_eq_false ?_
    rintro ⟨hA, -⟩
    have hA : 65 ≤ c.val.toNat := UInt32.le_iff_toNat_le.mp hA
    omega
  have hlower : c.isLower = false := by
    refine Bool.and_eq_false_iff.mpr (.inl (decide_eq_false ?_))
    intro ha
    have ha : 97 ≤ c.val.toNat := UInt32.le_iff_toNat_le.mp ha
    omega
  have hne : c ≠ '_' := by
    rintro rfl
    cases h
  show (c.isUpper || c.isLower || decide (c = '_')) = false
  rw [hupper, hlower, decide_eq_false hne]
  rfl

theorem headOf_digit {c : Char} (hd : c.isDigit = true) (s : List Char) :
    headOf (c :: s) = .digit := by
  simp [headOf, isWordStart_of_isDigit hd, hd]

/-- A text that starts with a keyword, as a whole word. -/
theorem headOf_word {w s : List Char} (hw : w ∈ reserved) (hs : Stops isWordChar s) :
    headOf (w ++ s) = .word w := by
  obtain ⟨hne, hall, hstart⟩ := reserved_isWord w hw
  cases w with
  | nil => exact absurd rfl hne
  | cons c cs =>
    have hc : isWordStart c = true := by simpa using hstart
    have hl : lead (c :: (cs ++ s)) = c :: cs := lead_append hall hs
    rw [List.cons_append, headOf, if_pos hc, hl, if_pos hw]

/-- A text has the head of a name exactly if an identifier stands there. -/
theorem headOf_eq_name {s : List Char} (h : isName (lead s) = true) : headOf s = .name := by
  cases s with
  | nil => cases h
  | cons c s =>
    have hc : isWordChar c = true := by
      cases hc : isWordChar c with
      | true => rfl
      | false =>
        rw [lead, List.takeWhile_cons_of_neg (by simp [hc])] at h
        cases h
    have hlead : lead (c :: s) = c :: s.takeWhile isWordChar := List.takeWhile_cons_of_pos hc
    have hstart : isWordStart c = true := by
      rw [hlead, isName, Bool.and_eq_true, Bool.and_eq_true] at h
      exact h.1.1
    rw [headOf, if_pos hstart, if_neg (isName_not_mem h)]

/-! ### Heads of rules -/

/-- The head of a keyword. -/
def Head.ofWord (w : String) : Head := .word w.toList

/-- The heads of types that variables have. -/
def typeHeads : List Head :=
  ["integer", "float", "boolean", "string", "auto", "array"].map Head.ofWord

/-- The heads of operands without an operator before them. -/
def primaryHeads : List Head :=
  [.digit, .mark '.', .mark '"', .ofWord "true", .ofWord "false", .name, .mark '(', .mark '\x7b']

/-- The heads of statements. -/
def statementHeads : List Head :=
  ["if", "for", "while", "do", "break", "continue", "return"].map Head.ofWord ++
    [.mark '\x7b', .name]

/-- The heads of the texts that a rule which leaves a node can read. -/
def Rule.first : Rule → List Head
  | identifier => [.name]
  | kwInteger => [.ofWord "integer"]
  | kwFloat => [.ofWord "float"]
  | kwBoolean => [.ofWord "boolean"]
  | kwString => [.ofWord "string"]
  | kwAuto => [.ofWord "auto"]
  | kwVoid => [.ofWord "void"]
  | kwOut => [.ofWord "out"]
  | kwInherit => [.ofWord "inherit"]
  | kwTrue => [.ofWord "true"]
  | kwFalse => [.ofWord "false"]
  | intLit => [.digit]
  | floatLit => [.digit, .mark '.']
  | strLit => [.mark '"']
  | boolLit => [.ofWord "true", .ofWord "false"]
  | literal => [.digit, .mark '.', .mark '"', .ofWord "true", .ofWord "false"]
  | primType => ["integer", "float", "boolean", "string"].map Head.ofWord
  | dimensions => [.digit]
  | arrayType => [.ofWord "array"]
  | varType => typeHeads
  | funcType => .ofWord "void" :: typeHeads
  | concatOp => [.mark ':']
  | relOp => [.mark '=', .mark '!', .mark '<', .mark '>']
  | logicOp => [.mark '&', .mark '|']
  | addOp => [.mark '+', .mark '-']
  | mulOp => [.mark '*', .mark '/', .mark '%']
  | notOp => [.mark '!']
  | negOp => [.mark '-']
  | expression | relational | logical | additive | multiplicative | notExpr | arguments =>
    .mark '!' :: .mark '-' :: primaryHeads
  | negExpr => .mark '-' :: primaryHeads
  | primary => primaryHeads
  | arrayCell | funcCall | lhs | assign | assignStmt | callStmt => [.name]
  | arrayLit | block => [.mark '\x7b']
  | ifStmt => [.ofWord "if"]
  | forStmt => [.ofWord "for"]
  | whileStmt => [.ofWord "while"]
  | doWhileStmt => [.ofWord "do"]
  | breakStmt => [.ofWord "break"]
  | continueStmt => [.ofWord "continue"]
  | returnStmt => [.ofWord "return"]
  | statement => statementHeads
  | initializers => [.mark '=']
  | paramDecl | paramList => [.ofWord "inherit", .ofWord "out", .name]
  | nameList | varDecl | funcDecl | declaration | program => [.name]
  | _ => []

namespace Peg

/-- The keyword that an expression reads as a whole word, if it is of that form. -/
def word? : Peg → Option (List Char)
  | seq (ahead (call .keyword)) (text w) => some w
  | _ => none

/-- The heads of the texts that an expression can read, when it reads something. -/
def first : Peg → List Head
  | text [] => []
  | text (c :: _) => [.mark c]
  | call r => r.first
  | seq a b =>
    match (seq a b).word? with
    | some w => [.word w]
    | none => a.first ++ if a.nullable then b.first else []
  | choice a b => a.first ++ b.first
  | opt a | star a | more a => a.first
  | one _ | start | finish | ahead _ | absent _ => []

/-- Every text is a mark, apart from keywords that are read as whole words, and every call is of a
rule whose heads are known. -/
def isMarked : Peg → Bool
  | call r => !r.nullable && r ≠ .program
  | text s => s.head?.any fun c => !isWordStart c && !c.isDigit
  | seq a b =>
    match (seq a b).word? with
    | some w => reserved.contains w
    | none => a.isMarked && b.isMarked
  | choice a b => a.isMarked && b.isMarked
  | opt a | star a | more a => a.isMarked
  | _ => true

theorem eq_word_of_word? {e : Peg} {w : List Char} (h : e.word? = some w) :
    e = .seq (.ahead (.call .keyword)) (.text w) := by
  unfold word? at h
  split at h
  · obtain rfl := Option.some.inj h
    rfl
  · cases h

end Peg

/-- The bodies of rules that leave nodes agree with the table. -/
theorem Rule.first_body (r : Rule) (h : r.kind = .plain) (hm : (Peg.call r).isMarked = true) :
    (∀ x ∈ r.body.first, x ∈ r.first) ∧ r.body.isMarked = true := by
  have hall : ∀ r ∈ Rule.all, r.kind = .plain → (Peg.call r).isMarked = true →
      (∀ x ∈ r.body.first, x ∈ r.first) ∧ r.body.isMarked = true := by
    decide
  exact hall r r.mem_all h hm

theorem Mode.rest_skip_of_piece?_none {m : Mode} {c : Cursor} (h : Trivia.piece? c.rest = none) :
    (m.skip c).2.rest = c.rest := by
  unfold Mode.skip
  split
  · rw [Trivia.skip_of_piece?_none h]
    rfl
  · rfl

namespace Peg

/-- A token that is read has one of the heads of its rule. -/
theorem first_of_token {r : Rule} (hr : r.isToken = true) (hne : r ≠ .strBody) {o : Nat}
    {s : List Char} {x : Match} (h : Ends .tight r.body ⟨o, s⟩ (some x)) : headOf s ∈ r.first := by
  simp only [Rule.isToken, Bool.or_eq_true, decide_eq_true_eq] at hr
  rcases hr with ((rfl | rfl) | rfl) | rfl
  · cases hn : isName (lead s) with
    | false => exact absurd h (lacks_name hn).not_ends
    | true => exact List.mem_singleton.mpr (headOf_eq_name hn)
  · cases s with
    | nil => exact absurd h (lacks_integer (stops_nil _)).not_ends
    | cons c s =>
      cases hc : c.isDigit with
      | false => exact absurd h (lacks_integer (stops_cons hc)).not_ends
      | true => exact List.mem_singleton.mpr (headOf_digit hc s)
  · cases s with
    | nil => exact absurd h (lacks_float (stops_nil _)).not_ends
    | cons c s =>
      cases hc : c.isDigit || c = '.' with
      | false => exact absurd h (lacks_float (stops_cons hc)).not_ends
      | true =>
        rw [Bool.or_eq_true, decide_eq_true_eq] at hc
        rcases hc with hc | rfl
        · rw [headOf_digit hc]; decide
        · rw [headOf_mark rfl rfl]; decide
  · exact absurd rfl hne

theorem first_text {s rest : List Char} (h : (text s).isMarked = true) :
    headOf (s ++ rest) ∈ (text s).first := by
  cases s with
  | nil => cases h
  | cons c s =>
    simp only [isMarked, List.head?_cons, Option.any_some, Bool.and_eq_true, Bool.not_eq_true'] at h
    rw [List.cons_append, headOf_mark h.1 h.2]
    exact List.mem_singleton.mpr rfl

/-- Where a keyword is ahead, the text starts with a whole word that is one. -/
theorem lead_of_ahead {m : Mode} {c c' : Cursor} {ts : List Tree}
    (h : Matches m (ahead (call .keyword)) c ts c') : lead c.rest ∈ reserved := by
  cases h with
  | @ahead _ _ _ x h =>
    obtain ⟨us, d⟩ := x
    cases h.matches with
    | call hb => exact Decidable.byContradiction fun hnot => (lacks_keyword hnot).not_ends hb.ends

/-- A keyword is read as its letters, with nothing before them but trivia. -/
theorem matches_word {m : Mode} {c d c' : Cursor} {ts us : List Tree} {w : List Char}
    (h : Matches m (ahead (call .keyword)) c ts d) (hw : Matches m (text w) (m.skip d).2 us c') :
    ts = [] ∧ d = c ∧ us = [.token w] ∧ (m.skip c).2.rest = w ++ c'.rest := by
  cases h with
  | ahead =>
    cases hw with
    | text hrest => exact ⟨rfl, rfl, rfl, hrest⟩

/-- A keyword that is read as a whole word is the head of the text. -/
theorem headOf_of_ahead {m : Mode} {c c' : Cursor} {ts : List Tree} {w rest : List Char}
    (hw : w ∈ reserved) (h : Matches m (ahead (call .keyword)) c ts c')
    (hrest : c.rest = w ++ rest) : headOf c.rest = .word w := by
  have hmem := lead_of_ahead h
  have hlead : w = lead c.rest :=
    reserved_prefixFree w hw _ hmem (prefix_lead (reserved_isWord w hw).2.1 ⟨rest, hrest.symm⟩)
  have hhead := headOf_word hmem (stops_dropWhile isWordChar c.rest)
  rw [show lead c.rest ++ c.rest.dropWhile isWordChar = c.rest from
    List.takeWhile_append_dropWhile ..] at hhead
  rw [hhead, hlead]

/-- A string literal starts with a quote. -/
theorem first_of_strLit {m : Mode} {c c' : Cursor} {ts : List Tree}
    (h : Matches m Rule.strLit.body c ts c') : headOf c.rest ∈ Rule.strLit.first := by
  cases h with
  | seq ha =>
    cases ha with
    | text hrest =>
      rw [hrest]
      exact first_text rfl

/-- **What is read starts with a head of the expression**, or nothing is read. -/
theorem first_of_matches {m : Mode} {e : Peg} {c c' : Cursor} {ts : List Tree}
    (h : Matches m e c ts c') (he : e.isSyntax = true) (hm : e.isMarked = true)
    (hp : Trivia.piece? c.rest = none) :
    (c'.rest = c.rest ∧ e.nullable = true) ∨ headOf c.rest ∈ e.first := by
  induction h with
  | text hrest =>
    rw [hrest]
    exact .inr (first_text hm)
  | one | absent => cases he
  | start | finish | without | starNil | moreNil | ahead => exact .inl ⟨rfl, rfl⟩
  | @call m r c c' parts h ih =>
    have hne : r ≠ .strBody := by
      rintro rfl
      cases hm
    simp only [isSyntax, Bool.or_eq_true, decide_eq_true_eq] at he
    rcases he with (hk | hk) | ht
    · obtain ⟨hfirst, hmark⟩ := Rule.first_body r hk hm
      rcases ih (Rule.isSyntax_body r (.inl hk)) hmark hp with ⟨hrest, hnull⟩ | hhead
      · exact .inl ⟨hrest, nullable_body r hnull⟩
      · exact .inr (hfirst _ hhead)
    · obtain rfl := Rule.eq_strLit_of_compound hk
      exact .inr (first_of_strLit h)
    · rw [kind_of_isToken ht] at h
      exact .inr (first_of_token ht hne h.ends)
  | @seq m a b c ca c' ta tb ha hb iha ihb =>
    cases hw : (seq a b).word? with
    | some w =>
      obtain ⟨rfl, rfl⟩ := seq.inj (eq_word_of_word? hw)
      have hres : w ∈ reserved := by simpa [isMarked, hw] using hm
      have hfirst : first (seq (ahead (call .keyword)) (text w)) = [.word w] := rfl
      obtain ⟨-, -, -, hrest⟩ := matches_word ha hb
      rw [Mode.rest_skip_of_piece?_none hp] at hrest
      rw [hfirst]
      exact .inr (List.mem_singleton.mpr (headOf_of_ahead hres ha hrest))
    | none =>
      obtain ⟨hea, heb⟩ := Bool.and_eq_true_iff.mp he
      have hmark : a.isMarked = true ∧ b.isMarked = true := by
        simpa [isMarked, hw] using hm
      have hfirst : first (seq a b) = a.first ++ if a.nullable then b.first else [] := by
        rw [first, hw]
      rw [hfirst, List.mem_append]
      rcases iha hea hmark.1 hp with ⟨hrest, hnull⟩ | hhead
      · -- the second item is read where the first was
        rw [Mode.rest_skip_of_piece?_none (hrest ▸ hp), hrest] at ihb
        rcases ihb heb hmark.2 hp with ⟨hrest', hnull'⟩ | hhead
        · exact .inl ⟨hrest', Bool.and_eq_true_iff.mpr ⟨hnull, hnull'⟩⟩
        · exact .inr (.inr (by rw [if_pos hnull]; exact hhead))
      · exact .inr (.inl hhead)
  | left _ ih =>
    rcases ih (Bool.and_eq_true_iff.mp he).1 (Bool.and_eq_true_iff.mp hm).1 hp with
      ⟨hrest, hnull⟩ | hhead
    · exact .inl ⟨hrest, Bool.or_eq_true_iff.mpr (.inl hnull)⟩
    · exact .inr (List.mem_append_left _ hhead)
  | right _ _ ih =>
    rcases ih (Bool.and_eq_true_iff.mp he).2 (Bool.and_eq_true_iff.mp hm).2 hp with
      ⟨hrest, hnull⟩ | hhead
    · exact .inl ⟨hrest, Bool.or_eq_true_iff.mpr (.inr hnull)⟩
    · exact .inr (List.mem_append_right _ hhead)
  | within _ ih => exact (ih he hm hp).imp_left fun h => ⟨h.1, rfl⟩
  | starCons _ _ iha ihu =>
    rcases iha he hm hp with ⟨hrest, -⟩ | hhead
    · rw [hrest] at ihu
      exact (ihu he hm hp).imp_left fun h => ⟨h.1, rfl⟩
    · exact .inr hhead
  | moreCons _ _ iha ihu =>
    rw [Mode.rest_skip_of_piece?_none hp] at iha
    rcases iha he hm hp with ⟨hrest, -⟩ | hhead
    · rw [hrest] at ihu
      exact (ihu he hm hp).imp_left fun h => ⟨h.1, rfl⟩
    · exact .inr hhead

/-- Read from the outside, the expression does not match at the start of the text. -/
def Refuses (e : Peg) (s : List Char) : Prop := ∀ o, Ends .normal e ⟨o, s⟩ none

/-- The expression is one to which heads apply: it reads syntax, it cannot match without reading,
and its readings end. -/
def isHeaded (e : Peg) : Bool :=
  e.isSyntax && e.isMarked && !e.nullable && e.guarded Rule.depth Rule.stepsPerChar

/-- **A text with another head is refused.** -/
theorem refuses_of_head {e : Peg} {s : List Char} (he : e.isHeaded = true)
    (hp : Trivia.piece? s = none) (hh : headOf s ∉ e.first) : Refuses e s := by
  intro o
  simp only [isHeaded, Bool.and_eq_true, Bool.not_eq_true'] at he
  obtain ⟨⟨⟨hs, hm⟩, hn⟩, hg⟩ := he
  have hne := scan_ne_none (s.length * Rule.stepsPerChar + e.reach Rule.depth) (m := .normal)
    (c := ⟨o, s⟩) hg (Nat.le_refl _)
  rcases hscan : scan (s.length * Rule.stepsPerChar + e.reach Rule.depth) .normal e ⟨o, s⟩ with
    _ | _ | ⟨ts, c'⟩
  · exact absurd hscan hne
  · exact ⟨_, hscan⟩
  · rcases first_of_matches (matches_of_scan _ hscan) hs hm hp with ⟨-, hnull⟩ | hhead
    · rw [hn] at hnull
      cases hnull
    · exact absurd hhead hh

end Peg

end Mt22
