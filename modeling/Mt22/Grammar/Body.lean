import Mt22.Grammar.Peg

/-!
# The grammar of MT22

The body of every rule.  Expression tiers bind from the loosest, `expression`, to the tightest,
`primary`; an operator is a node of its own, so that its text can be read off the tree.
-/

namespace Mt22

/-- The keywords. -/
def keywords : List String := [
  "auto", "array", "boolean", "break", "continue", "do", "else", "false", "float", "for",
  "function", "if", "inherit", "integer", "of", "out", "return", "string", "true", "void", "while"]

namespace Peg

/-- A line end. -/
def lineEnd : Peg := oneOf ["\n", "\r\n", "\r"]

/-- A comment that ends at the first closing mark. -/
def closedComment : Peg := items ["/*", star (seq (absent "*/") any), "*/"]

/-- A comment that ends with its line. -/
def openComment : Peg := seq "//" (star (seq (absent lineEnd) any))

/-- A decimal digit. -/
def digit : Peg := one Char.isDigit

/-- A character of an identifier. -/
def wordChar : Peg := oneOf [one Char.isAlphanum, "_"]

/-- The digits before the point of a number. -/
def wholeDigits : Peg :=
  oneOf ["0", seq (one fun c => c.isDigit && c != '0') (star (oneOf [digit, "_"]))]

/-- A point and the digits after it. -/
def fraction : Peg := seq "." (star digit)

/-- The exponent of a number. -/
def exponent : Peg := items [oneOf ["e", "E"], opt (oneOf ["+", "-"]), plus digit]

/-- A character of a string, or an escape. -/
def stringChar : Peg :=
  oneOf [
    seq "\\" (oneOf ["b", "f", "r", "n", "t", "'", "\\", "\""]),
    seq (absent (oneOf ["\"", "\\", "\n", "\r"])) any]

end Peg

open Peg

namespace Rule

/-- The body of a rule. -/
def body : Rule → Peg
  | eoi => finish
  | whitespace => oneOf [" ", "\t", "\r", "\n", "\x0c"]
  | comment => oneOf [closedComment, openComment]
  | blockComment => closedComment
  | lineComment => openComment
  | identChar => wordChar
  | keyword => seq (oneOf (keywords.map fun w => text w.toList)) (absent wordChar)
  | identifier => items [absent (call keyword), oneOf [one Char.isAlpha, "_"], star wordChar]
  | kArray => word "array"
  | kOf => word "of"
  | kFunction => word "function"
  | kInherit => word "inherit"
  | kIf => word "if"
  | kElse => word "else"
  | kFor => word "for"
  | kWhile => word "while"
  | kDo => word "do"
  | kBreak => word "break"
  | kContinue => word "continue"
  | kReturn => word "return"
  | kwInteger => word "integer"
  | kwFloat => word "float"
  | kwBoolean => word "boolean"
  | kwString => word "string"
  | kwAuto => word "auto"
  | kwVoid => word "void"
  | kwOut => word "out"
  | kwInherit => word "inherit"
  | kwTrue => word "true"
  | kwFalse => word "false"
  | intPart => wholeDigits
  | decPart => fraction
  | expPart => exponent
  | intLit => wholeDigits
  | floatLit =>
    oneOf [items [wholeDigits, fraction, opt exponent], seq wholeDigits exponent,
      seq fraction exponent]
  | strLit => items ["\"", call strBody, "\""]
  | strBody => star stringChar
  | strChar => stringChar
  | boolLit => oneOf [call kwTrue, call kwFalse]
  | literal => oneOf [call floatLit, call intLit, call strLit, call boolLit]
  | primType => oneOf [call kwInteger, call kwFloat, call kwBoolean, call kwString]
  | dimensions => commaList (call intLit)
  | arrayType => items [word "array", "[", call dimensions, "]", word "of", call primType]
  | varType => oneOf [call primType, call kwAuto, call arrayType]
  | funcType => oneOf [call kwVoid, call varType]
  | concatOp => "::"
  | relOp => oneOf ["==", "!=", "<=", ">=", "<", ">"]
  | logicOp => oneOf ["&&", "||"]
  | addOp => oneOf ["+", "-"]
  | mulOp => oneOf ["*", "/", "%"]
  | notOp => "!"
  | negOp => "-"
  | expression => seq (call relational) (opt (seq (call concatOp) (call relational)))
  | relational => seq (call logical) (opt (seq (call relOp) (call logical)))
  | logical => seq (call additive) (star (seq (call logicOp) (call additive)))
  | additive => seq (call multiplicative) (star (seq (call addOp) (call multiplicative)))
  | multiplicative => seq (call notExpr) (star (seq (call mulOp) (call notExpr)))
  | notExpr => oneOf [seq (call notOp) (call notExpr), call negExpr]
  | negExpr => oneOf [seq (call negOp) (call negExpr), call primary]
  | primary =>
    oneOf [call literal, call arrayCell, call funcCall, call identifier,
      items ["(", call expression, ")"], call arrayLit]
  | arguments => commaList (call expression)
  | arrayCell => items [call identifier, "[", call arguments, "]"]
  | funcCall => items [call identifier, "(", opt (call arguments), ")"]
  | arrayLit => items ["\x7b", opt (call arguments), "\x7d"]
  | lhs => oneOf [call arrayCell, call identifier]
  | assign => items [call lhs, "=", call expression]
  | assignStmt => seq (call assign) ";"
  | ifStmt =>
    items [word "if", "(", call expression, ")", call statement,
      opt (seq (word "else") (call statement))]
  | forStmt =>
    items [word "for", "(", call assign, ",", call expression, ",", call expression, ")",
      call statement]
  | whileStmt => items [word "while", "(", call expression, ")", call statement]
  | doWhileStmt => items [word "do", call block, word "while", "(", call expression, ")", ";"]
  | breakStmt => seq (word "break") ";"
  | continueStmt => seq (word "continue") ";"
  | returnStmt => items [word "return", opt (call expression), ";"]
  | callStmt => seq (call funcCall) ";"
  | statement =>
    oneOf [call ifStmt, call forStmt, call whileStmt, call doWhileStmt, call breakStmt,
      call continueStmt, call returnStmt, call block, call callStmt, call assignStmt]
  | block => items ["\x7b", star (oneOf [call varDecl, call statement]), "\x7d"]
  | nameList => commaList (call identifier)
  | initializers => seq "=" (commaList (call expression))
  | varDecl => items [call nameList, ":", call varType, opt (call initializers), ";"]
  | paramDecl => items [opt (call kwInherit), opt (call kwOut), call identifier, ":", call varType]
  | paramList => commaList (call paramDecl)
  | funcDecl =>
    items [call identifier, ":", word "function", call funcType, "(", opt (call paramList), ")",
      opt (seq (word "inherit") (call identifier)), call block]
  | declaration => oneOf [call funcDecl, call varDecl]
  | program => items [start, plus (call declaration), call eoi]

end Rule

end Mt22
