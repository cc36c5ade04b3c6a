/-!
# Operators

The operators of expressions, their symbols and their names.
-/

namespace Mt22

/-- An operator between two expressions, the loosest first. -/
inductive BinaryOp where
  | concat
  | eq | ne | lt | le | gt | ge
  | and | or
  | add | sub
  | mul | div | mod
deriving DecidableEq

namespace BinaryOp

/-- All operators between two expressions. -/
def all : List BinaryOp := [concat, eq, ne, lt, le, gt, ge, and, or, add, sub, mul, div, mod]

/-- How an operator is written. -/
def symbol : BinaryOp → String
  | concat => "::"
  | eq => "=="
  | ne => "!="
  | lt => "<"
  | le => "<="
  | gt => ">"
  | ge => ">="
  | and => "&&"
  | or => "||"
  | add => "+"
  | sub => "-"
  | mul => "*"
  | div => "/"
  | mod => "%"

/-- What an operator is called. -/
def name : BinaryOp → String
  | concat => "Concat"
  | eq => "Eq"
  | ne => "Ne"
  | lt => "Lt"
  | le => "Le"
  | gt => "Gt"
  | ge => "Ge"
  | and => "And"
  | or => "Or"
  | add => "Add"
  | sub => "Sub"
  | mul => "Mul"
  | div => "Div"
  | mod => "Mod"

/-- The operator with a symbol. -/
def ofSymbol? (s : String) : Option BinaryOp := all.find? fun op => op.symbol = s

theorem mem_all (op : BinaryOp) : op ∈ all := by
  cases op <;> decide

theorem ofSymbol?_symbol (op : BinaryOp) : ofSymbol? op.symbol = some op := by
  cases op <;> decide

theorem symbol_inj {a b : BinaryOp} (h : a.symbol = b.symbol) : a = b :=
  Option.some.inj (by rw [← ofSymbol?_symbol a, h, ofSymbol?_symbol b])

theorem symbol_of_ofSymbol? {s : String} {op : BinaryOp} (h : ofSymbol? s = some op) :
    op.symbol = s := by
  simpa using List.find?_some h

end BinaryOp

/-- An operator before an expression. -/
inductive UnaryOp where
  | not
  | neg
deriving DecidableEq

namespace UnaryOp

/-- All operators before an expression. -/
def all : List UnaryOp := [not, neg]

/-- How an operator is written. -/
def symbol : UnaryOp → String
  | not => "!"
  | neg => "-"

/-- What an operator is called. -/
def name : UnaryOp → String
  | not => "Not"
  | neg => "Neg"

/-- The operator with a symbol. -/
def ofSymbol? (s : String) : Option UnaryOp := all.find? fun op => op.symbol = s

theorem ofSymbol?_symbol (op : UnaryOp) : ofSymbol? op.symbol = some op := by
  cases op <;> decide

theorem symbol_inj {a b : UnaryOp} (h : a.symbol = b.symbol) : a = b :=
  Option.some.inj (by rw [← ofSymbol?_symbol a, h, ofSymbol?_symbol b])

theorem symbol_of_ofSymbol? {s : String} {op : UnaryOp} (h : ofSymbol? s = some op) :
    op.symbol = s := by
  simpa using List.find?_some h

end UnaryOp

end Mt22
