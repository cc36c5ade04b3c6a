import Mt22.Number.Binary64
import Mt22.Program.Basic
import Mt22.Tree.Visit

/-!
# Values of literals

A number may be written with `_` between its digits, and a float may have no digit at all beside
its point.
-/

namespace Mt22

namespace Literal

/-- A number without the separators between its digits. -/
def withoutSeparators (s : List Char) : List Char := s.filter (· != '_')

/-- A float with a digit before a point that the exponent follows at once; any other text is
left as it is. -/
def withLeadingZero : List Char → List Char
  | '.' :: c :: rest => if c = 'e' ∨ c = 'E' then '0' :: '.' :: c :: rest else '.' :: c :: rest
  | s => s

/-- The value of an integer token. -/
def integer (t : Tree) : Except Fault Int :=
  match Number.readSigned64? (withoutSeparators t.text) with
  | some n => .ok n
  | none => .error (.integerRange t)

/-- The value of an integer token that is a dimension. -/
def dimension (t : Tree) : Except Fault Nat :=
  match Number.readUnsigned64? (withoutSeparators t.text) with
  | some n => .ok n
  | none => .error (.dimensionRange t)

/-- The value of a float token. -/
def float (t : Tree) : Except Fault Number.Binary64 :=
  match Number.Binary64.read? (withLeadingZero (withoutSeparators t.text)) with
  | some x => .ok x
  | none => .error (.notANumber t)

/-- The text of a string literal, with its escapes as they are written. -/
def string (t : Tree) : Except Fault String :=
  t.visit do return (← Visit.expect .strBody).tree.string

/-- The value of a boolean literal. -/
def boolean (t : Tree) : Except Fault Bool :=
  t.visit do
    let value ← Visit.next
    match value.rule with
    | .kwTrue => return true
    | .kwFalse => return false
    | r => Visit.violation (.unexpected .boolean r)

end Literal

/-- The expression of a literal. -/
def Expr.ofLiteral (t : Tree) : Except Fault Expr :=
  t.visit do
    let token ← Visit.next
    match token.rule with
    | .intLit => return .int (← Literal.integer token.tree)
    | .floatLit => return .float (← Literal.float token.tree)
    | .strLit => return .str (← Literal.string token.tree)
    | .boolLit => return .bool (← Literal.boolean token.tree)
    | r => Visit.violation (.unexpected .literal r)

end Mt22
