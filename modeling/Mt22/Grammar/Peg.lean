import Mt22.Grammar.Rule

/-!
# Grammar expressions

The right side of a rule: texts and characters, calls of rules, and the operators of an
ordered-choice grammar.  The first alternative of a `choice` that matches is taken, repetition
takes as much as it can, and lookahead matches without reading.
-/

namespace Mt22

/-- A grammar expression. -/
inductive Peg where
  /-- These characters. -/
  | text (s : List Char)
  /-- One character of a class. -/
  | one (p : Char → Bool)
  /-- The start of the text. -/
  | start
  /-- The end of the text. -/
  | finish
  | call (r : Rule)
  /-- The first, trivia, then the second. -/
  | seq (a b : Peg)
  /-- The first, or else the second. -/
  | choice (a b : Peg)
  | opt (a : Peg)
  /-- Any number of items, with trivia between them. -/
  | star (a : Peg)
  /-- Any number of further items, with trivia before each of them. -/
  | more (a : Peg)
  /-- The expression matches here; nothing is read. -/
  | ahead (a : Peg)
  /-- The expression does not match here; nothing is read. -/
  | absent (a : Peg)

namespace Peg

instance : Coe String Peg := ⟨fun s => text s.toList⟩

/-- Any character. -/
def any : Peg := one fun _ => true

/-- A sequence of expressions. -/
def items : List Peg → Peg
  | [] => text []
  | [a] => a
  | a :: rest => seq a (items rest)

/-- A choice between expressions. -/
def oneOf : List Peg → Peg
  | [] => absent (text [])
  | [a] => a
  | a :: rest => choice a (oneOf rest)

/-- One item or more. -/
def plus (a : Peg) : Peg := seq a (star a)

/-- One item or more, with commas between them. -/
def commaList (a : Peg) : Peg := seq a (star (seq "," a))

/-- A keyword as a whole word: the lookahead keeps it from matching the start of an identifier. -/
def word (w : String) : Peg := seq (ahead (call .keyword)) w

/-- The number of operators and leaves. -/
def size : Peg → Nat
  | text _ | one _ | start | finish | call _ => 1
  | seq a b | choice a b => a.size + b.size + 1
  | opt a | star a | more a | ahead a | absent a => a.size + 1

end Peg

end Mt22
