/-!
# The rules of the grammar

Every rule has a name, by which trees, messages and callers refer to it, and a kind, which says
what reading it leaves behind.
-/

namespace Mt22

/-- A rule of the grammar.  The order is the one in which expected rules are listed. -/
inductive Rule where
  | eoi
  | whitespace | comment | blockComment | lineComment
  | identChar | keyword | identifier
  | kArray | kOf | kFunction | kInherit
  | kIf | kElse | kFor | kWhile | kDo | kBreak | kContinue | kReturn
  | kwInteger | kwFloat | kwBoolean | kwString | kwAuto | kwVoid | kwOut | kwInherit
  | kwTrue | kwFalse
  | intPart | decPart | expPart | intLit | floatLit | strLit | strBody | strChar | boolLit | literal
  | primType | dimensions | arrayType | varType | funcType
  | concatOp | relOp | logicOp | addOp | mulOp | notOp | negOp
  | expression | relational | logical | additive | multiplicative | notExpr | negExpr | primary
  | arguments | arrayCell | funcCall | arrayLit
  | lhs | assign | assignStmt | ifStmt | forStmt | whileStmt | doWhileStmt
  | breakStmt | continueStmt | returnStmt | callStmt
  | statement | block
  | nameList | initializers | varDecl | paramDecl | paramList | funcDecl | declaration | program
deriving DecidableEq

namespace Rule

/-- All rules, in order. -/
def all : List Rule := [
  eoi,
  whitespace, comment, blockComment, lineComment,
  identChar, keyword, identifier,
  kArray, kOf, kFunction, kInherit, kIf, kElse, kFor, kWhile, kDo, kBreak, kContinue, kReturn,
  kwInteger, kwFloat, kwBoolean, kwString, kwAuto, kwVoid, kwOut, kwInherit, kwTrue, kwFalse,
  intPart, decPart, expPart, intLit, floatLit, strLit, strBody, strChar, boolLit, literal,
  primType, dimensions, arrayType, varType, funcType,
  concatOp, relOp, logicOp, addOp, mulOp, notOp, negOp,
  expression, relational, logical, additive, multiplicative, notExpr, negExpr, primary,
  arguments, arrayCell, funcCall, arrayLit,
  lhs, assign, assignStmt, ifStmt, forStmt, whileStmt, doWhileStmt,
  breakStmt, continueStmt, returnStmt, callStmt,
  statement, block,
  nameList, initializers, varDecl, paramDecl, paramList, funcDecl, declaration, program]

theorem mem_all (r : Rule) : r ∈ all := by
  cases r <;> decide

/-- The name of a rule. -/
def name : Rule → String
  | eoi => "EOI"
  | whitespace => "WHITESPACE"
  | comment => "COMMENT"
  | blockComment => "block_comment"
  | lineComment => "line_comment"
  | identChar => "ident_char"
  | keyword => "keyword"
  | identifier => "identifier"
  | kArray => "k_array"
  | kOf => "k_of"
  | kFunction => "k_function"
  | kInherit => "k_inherit"
  | kIf => "k_if"
  | kElse => "k_else"
  | kFor => "k_for"
  | kWhile => "k_while"
  | kDo => "k_do"
  | kBreak => "k_break"
  | kContinue => "k_continue"
  | kReturn => "k_return"
  | kwInteger => "kw_integer"
  | kwFloat => "kw_float"
  | kwBoolean => "kw_boolean"
  | kwString => "kw_string"
  | kwAuto => "kw_auto"
  | kwVoid => "kw_void"
  | kwOut => "kw_out"
  | kwInherit => "kw_inherit"
  | kwTrue => "kw_true"
  | kwFalse => "kw_false"
  | intPart => "int_part"
  | decPart => "dec_part"
  | expPart => "exp_part"
  | intLit => "int_lit"
  | floatLit => "float_lit"
  | strLit => "str_lit"
  | strBody => "str_body"
  | strChar => "str_char"
  | boolLit => "bool_lit"
  | literal => "literal"
  | primType => "prim_type"
  | dimensions => "dimensions"
  | arrayType => "array_type"
  | varType => "var_type"
  | funcType => "func_type"
  | concatOp => "concat_op"
  | relOp => "rel_op"
  | logicOp => "logic_op"
  | addOp => "add_op"
  | mulOp => "mul_op"
  | notOp => "not_op"
  | negOp => "neg_op"
  | expression => "expression"
  | relational => "relational"
  | logical => "logical"
  | additive => "additive"
  | multiplicative => "multiplicative"
  | notExpr => "not_expr"
  | negExpr => "neg_expr"
  | primary => "primary"
  | arguments => "arguments"
  | arrayCell => "array_cell"
  | funcCall => "func_call"
  | arrayLit => "array_lit"
  | lhs => "lhs"
  | assign => "assign"
  | assignStmt => "assign_stmt"
  | ifStmt => "if_stmt"
  | forStmt => "for_stmt"
  | whileStmt => "while_stmt"
  | doWhileStmt => "do_while_stmt"
  | breakStmt => "break_stmt"
  | continueStmt => "continue_stmt"
  | returnStmt => "return_stmt"
  | callStmt => "call_stmt"
  | statement => "statement"
  | block => "block"
  | nameList => "name_list"
  | initializers => "initializers"
  | varDecl => "var_decl"
  | paramDecl => "param_decl"
  | paramList => "param_list"
  | funcDecl => "func_decl"
  | declaration => "declaration"
  | program => "program"

/-- The rule with a name. -/
def ofName? (s : String) : Option Rule :=
  all.find? fun r => r.name = s

/-- What reading a rule leaves behind, and how its body is read. -/
inductive Kind where
  /-- A node, with trivia allowed between the items of the body. -/
  | plain
  /-- No node of its own; trivia as around it. -/
  | hidden
  /-- No node of its own, and no trivia inside. -/
  | bare
  /-- A node, with no trivia inside. -/
  | compound
  /-- A node that is one token: no trivia and no nodes inside. -/
  | token
deriving DecidableEq

/-- The kind of a rule. -/
def kind : Rule → Kind
  | whitespace | comment => .bare
  | blockComment | lineComment | identChar => .hidden
  | kArray | kOf | kFunction | kInherit
  | kIf | kElse | kFor | kWhile | kDo | kBreak | kContinue | kReturn => .hidden
  | intPart | decPart | expPart | strChar => .hidden
  | strLit => .compound
  | keyword | identifier | intLit | floatLit | strBody => .token
  | _ => .plain

/-- The rule leaves a node, and its failures are remembered. -/
def Kind.isNamed : Kind → Bool
  | .plain | .compound | .token => true
  | .hidden | .bare => false

end Rule

end Mt22
