import Mt22.Grammar.Body
import Mt22.Grammar.Trivia
import Mt22.Parsing.Attempts
import Mt22.Tree.Basic

/-!
# Reading a text by the grammar

`Peg.run` reads an expression at a place in a text.  It is given a number of steps by which its
recursion is bounded; `none` means that they were used up, which for `Rule.steps` of them never
happens.  Otherwise the reply says whether the expression matched, with the trees it left and
the place it reached, and which attempts are remembered.

Three things depend on where an expression stands, and form its `Mode`: whether trivia may stand
between items, whether rules leave nodes, and whether failures are remembered.
-/

namespace Mt22

/-- A place in a text: its byte offset, and the characters from there on. -/
structure Cursor where
  offset : Nat
  rest : List Char

namespace Cursor

/-- The start of a text. -/
def ofText (s : List Char) : Cursor := ⟨0, s⟩

/-- The place after some characters. -/
def moved (c : Cursor) (taken rest : List Char) : Cursor :=
  ⟨c.offset + Text.byteSize taken, rest⟩

end Cursor

/-- How an expression is read. -/
structure Mode where
  spaced : Bool
  nodes : Bool
  notes : Bool
deriving DecidableEq

namespace Mode

/-- The mode in which a text is read from the outside. -/
def normal : Mode := ⟨true, true, true⟩

/-- The mode of the body of a rule. -/
def enter (m : Mode) : Rule.Kind → Mode
  | .plain | .hidden => m
  | .compound => { m with spaced := false }
  | .bare | .token => ⟨false, false, false⟩

/-- The mode of a lookahead. -/
def ahead (m : Mode) : Mode := { m with nodes := false }

/-- The mode of a lookahead for what must be absent. -/
def absent (m : Mode) : Mode := { m with nodes := false, notes := false }

/-- The trivia at a place where it is allowed, as trees, and the place after it. -/
def skip (m : Mode) (c : Cursor) : List Tree × Cursor :=
  if m.spaced then
    let (text, rest) := Trivia.skip c.rest
    (if text.isEmpty then [] else [.trivia text], c.moved text rest)
  else ([], c)

/-- The trees that a rule leaves when its body left `parts`. -/
def leave (m : Mode) (r : Rule) (before after : Cursor) (parts : List Tree) : List Tree :=
  if m.nodes && r.kind.isNamed then
    [.node r before.offset after.offset
      (if r.kind = .token then [.token (Tree.textAll parts)] else parts)]
  else parts

end Mode

/-- The trees that a match left and the place it reached. -/
abbrev Match := List Tree × Cursor

/-- The outcome of reading an expression: a match or none, and the attempts remembered so far. -/
structure Reply where
  found : Option Match
  attempts : Attempts

namespace Peg

/-- The text `s` here. -/
def matchText (s : List Char) (c : Cursor) : Option Match :=
  if s.isPrefixOf c.rest then some ([.token s], c.moved s (c.rest.drop s.length)) else none

/-- One character of a class here. -/
def matchOne (p : Char → Bool) (c : Cursor) : Option Match :=
  match c.rest with
  | [] => none
  | x :: rest => if p x then some ([.token [x]], c.moved [x] rest) else none

/-- Reads an expression, in at most `steps` nested steps. -/
def run (steps : Nat) (m : Mode) (e : Peg) (c : Cursor) (w : Attempts) : Option Reply :=
  match steps with
  | 0 => none
  | steps + 1 =>
    match e with
    | text s => some ⟨matchText s c, w⟩
    | one p => some ⟨matchOne p c, w⟩
    | start => some ⟨if c.offset = 0 then some ([], c) else none, w⟩
    | finish => some ⟨if c.rest.isEmpty then some ([], c) else none, w⟩
    | call r =>
      match run steps (m.enter r.kind) r.body c w with
      | none => none
      | some ⟨some (parts, c'), w'⟩ => some ⟨some (m.leave r c c' parts, c'), w'⟩
      | some ⟨none, w'⟩ =>
        some ⟨none,
          if m.notes && r.kind.isNamed then w'.note r c.offset (w.countAt c.offset) else w'⟩
    | seq a b =>
      match run steps m a c w with
      | none => none
      | some ⟨none, w'⟩ => some ⟨none, w'⟩
      | some ⟨some (ta, ca), w'⟩ =>
        let (gap, cg) := m.skip ca
        match run steps m b cg w' with
        | none => none
        | some ⟨none, w''⟩ => some ⟨none, w''⟩
        | some ⟨some (tb, cb), w''⟩ => some ⟨some (ta ++ gap ++ tb, cb), w''⟩
    | choice a b =>
      match run steps m a c w with
      | none => none
      | some ⟨some found, w'⟩ => some ⟨some found, w'⟩
      | some ⟨none, w'⟩ => run steps m b c w'
    | opt a =>
      match run steps m a c w with
      | none => none
      | some ⟨found, w'⟩ => some ⟨some (found.getD ([], c)), w'⟩
    | star a =>
      match run steps m a c w with
      | none => none
      | some ⟨none, w'⟩ => some ⟨some ([], c), w'⟩
      | some ⟨some (ta, ca), w'⟩ =>
        match run steps m (more a) ca w' with
        | none => none
        | some ⟨found, w''⟩ => some ⟨found.map fun (ts, cs) => (ta ++ ts, cs), w''⟩
    | more a =>
      let (gap, cg) := m.skip c
      match run steps m a cg w with
      | none => none
      | some ⟨none, w'⟩ => some ⟨some ([], c), w'⟩
      | some ⟨some (ta, ca), w'⟩ =>
        match run steps m (more a) ca w' with
        | none => none
        | some ⟨found, w''⟩ => some ⟨found.map fun (ts, cs) => (gap ++ ta ++ ts, cs), w''⟩
    | ahead a =>
      match run steps m.ahead a c w with
      | none => none
      | some ⟨found, w'⟩ => some ⟨found.map fun _ => ([], c), w'⟩
    | absent a =>
      match run steps m.absent a c w with
      | none => none
      | some ⟨found, w'⟩ => some ⟨if found.isSome then none else some ([], c), w'⟩

end Peg

namespace Rule

/-- The steps that can be nested without reading a character: no rule is entered again at the
place where it was entered, so each rule contributes its size at most once. -/
def stepsPerChar : Nat := all.foldr (fun r n => r.body.size + 1 + n) 0

/-- Steps enough to read any rule on a text of `length` characters. -/
def steps (length : Nat) : Nat := (length + 1) * stepsPerChar

/-- Reads a rule at the start of a text: the trees it leaves, or the attempts remembered when it
failed.  The text may go on after the rule. -/
def read (r : Rule) (source : List Char) : Except Attempts (List Tree) :=
  match Peg.run (steps source.length) .normal (.call r) (.ofText source) .none with
  | some ⟨some (ts, _), _⟩ => .ok ts
  | some ⟨none, w⟩ => .error w
  | none => .error .none

end Rule

end Mt22
