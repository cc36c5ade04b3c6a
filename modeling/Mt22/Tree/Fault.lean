import Mt22.Diagnostic
import Mt22.Text.Quoted
import Mt22.Tree.Basic

/-!
# Faults of trees

What can be wrong with a syntax tree from which a program is to be made.  A tree made by the
grammar always has the right shape; then only the value of a literal or the number of
initializers can be at fault.  Every fault carries the node it was found at.
-/

namespace Mt22

/-- What a child that does not fit was taken for. -/
inductive Role where
  | declaration | typeForm | primitiveType | literal | boolean | primary | target | blockItem
  | statement
deriving DecidableEq

def Role.name : Role → String
  | declaration => "declaration"
  | typeForm => "type form"
  | primitiveType => "primitive type"
  | literal => "literal"
  | boolean => "boolean"
  | primary => "primary"
  | target => "assignment target"
  | blockItem => "block item"
  | statement => "statement"

/-- A way in which the children of a node are not those that its rule promises. -/
inductive Violation where
  /-- There is no child left where one must stand. -/
  | exhausted
  /-- A child of one rule must stand where another child stands, or none. -/
  | expected (rule : Rule) (found : Option Rule)
  /-- A child is left over. -/
  | trailing (rule : Rule)
  /-- The rule of a child is none of those that its role allows. -/
  | unexpected (role : Role) (rule : Rule)
  | unknownBinary (symbol : String)
  | unknownUnary (symbol : String)
  | noDimensions
  | noIndices
deriving DecidableEq

def Violation.message : Violation → String
  | exhausted => "expected another child but found none"
  | expected rule found =>
    "expected " ++ rule.name ++ " but found " ++ (found.map Rule.name).getD "none"
  | trailing rule => "unexpected trailing " ++ rule.name
  | unexpected role rule => "unexpected " ++ role.name ++ " " ++ rule.name
  | unknownBinary symbol => "unknown binary operator " ++ Text.quoted symbol
  | unknownUnary symbol => "unknown unary operator " ++ Text.quoted symbol
  | noDimensions => "array type without dimensions"
  | noIndices => "array cell without indices"

/-- Why a tree is no program. -/
inductive Fault where
  /-- A node has the wrong children. -/
  | shape (node : Tree) (violation : Violation)
  /-- The text of a float token is no number. -/
  | notANumber (token : Tree)
  /-- An integer token has no value of 64 bits. -/
  | integerRange (token : Tree)
  /-- A dimension has no value of 64 bits. -/
  | dimensionRange (token : Tree)
  /-- A variable group has another number of initializers than of names. -/
  | initializerCount (group : Tree) (names values : Nat)

namespace Fault

/-- The node at which a fault was found. -/
def node : Fault → Tree
  | shape t _ | notANumber t | integerRange t | dimensionRange t | initializerCount t _ _ => t

def level : Fault → Level
  | shape .. | notANumber _ => .critical
  | integerRange _ | dimensionRange _ | initializerCount .. => .error

def message : Fault → String
  | shape t v => t.ruleName ++ ": " ++ v.message
  | notANumber t => "Float literal " ++ t.string ++ " is not a number."
  | integerRange t => "Integer literal " ++ t.string ++ " does not fit in 64 bits."
  | dimensionRange t => "Array dimension " ++ t.string ++ " is too large."
  | initializerCount _ names values =>
    "Declaration of " ++ toString names ++ " variable(s) has " ++ toString values ++
      " initializer(s)."

def issuer : Fault → String
  | shape t _ => "mt22.lower." ++ t.ruleName
  | notANumber _ => "mt22.lower.literal.float_value"
  | integerRange _ | dimensionRange _ => "mt22.lower.literal"
  | initializerCount .. => "mt22.lower.decl.lower_var_decl"

/-- A fault in a script with a name and a source: its place is that of its node. -/
def diagnostic (file : String) (source : List Char) (f : Fault) : Diagnostic :=
  let start := Location.ofPosition file (Text.positionAt source f.node.start)
  let stop := Location.ofPosition file (Text.positionAt source f.node.stop)
  ⟨f.level, f.message, f.issuer, some start, some ⟨start, stop⟩⟩

end Fault

end Mt22
