import Mt22.Program.OfTree.Value
import Mt22.Proofs.Token.Class

/-!
# Printed programs

The text of a program, as tokens.  Parentheses stand only where the operator of a part binds no
tighter than its place requires, and every variable has a declaration of its own.  A float may be
written in many ways, so that what is printed is a list of *pieces*, and a text is any choice of
spellings for them.

* `Program.pieces`: the pieces of a program.
* `Piece.Spells`: the tokens that a piece may be written as.
* `Program.isWellFormed`: the programs that have a text at all.
-/

namespace Mt22

open Mt22.Token

/-- A piece of a printed program. -/
inductive Piece where
  /-- A token. -/
  | word (w : List Char)
  /-- A float, in one of its spellings. -/
  | float (x : Number.Binary64)

namespace Piece

/-- A keyword or a mark. -/
def mark (s : String) : Piece := word s.toList

/-- The token is a spelling of the piece. -/
def Spells : Piece → List Char → Prop
  | word w, v => v = w
  | float x, v => IsFloat v ∧
      Number.Binary64.read? (Literal.withLeadingZero (Literal.withoutSeparators v)) = some x

/-- The decimal digits of a number. -/
def numeral (n : Nat) : Piece := word (Nat.toDigits 10 n)

/-- Groups of pieces with commas between them. -/
def withCommas (groups : List (List Piece)) : List Piece := [mark ","].intercalate groups

/-- Pieces in parentheses, if they need them. -/
def parenthesized (b : Bool) (ps : List Piece) : List Piece :=
  if b then mark "(" :: (ps ++ [mark ")"]) else ps

end Piece

open Piece

/-! ### Expressions -/

/-- The tier of an operator between operands.  A higher tier binds tighter. -/
def BinaryOp.tier : BinaryOp → Nat
  | concat => 0
  | eq | ne | lt | le | gt | ge => 1
  | and | or => 2
  | add | sub => 3
  | mul | div | mod => 4

/-- The tier that the left operand must have at least: operators of the two loosest tiers do not
associate, the others associate to the left. -/
def BinaryOp.leftTier (op : BinaryOp) : Nat := if op.tier < 2 then op.tier + 1 else op.tier

/-- The tier of an operator before an operand, which is also that of the operand. -/
def UnaryOp.tier : UnaryOp → Nat
  | not => 5
  | neg => 6

namespace Expr

mutual

/-- An expression where one of tier `k` at least is required. -/
def pieces (k : Nat) : Expr → List Piece
  | id name => [word name.toList]
  | int value => [numeral value.toNat]
  | float value => [.float value]
  | str text => [word ('"' :: (text.toList ++ ['"']))]
  | bool value => [mark (if value then "true" else "false")]
  | array elements => mark "\x7b" :: (withCommas (piecesAll elements) ++ [mark "\x7d"])
  | cell name indices =>
    word name.toList :: mark "[" :: (withCommas (piecesAll indices) ++ [mark "]"])
  | call name args => word name.toList :: mark "(" :: (withCommas (piecesAll args) ++ [mark ")"])
  | binary op left right =>
    parenthesized (op.tier < k)
      (pieces op.leftTier left ++ mark op.symbol :: pieces (op.tier + 1) right)
  | unary op operand => parenthesized (op.tier < k) (mark op.symbol :: pieces op.tier operand)

/-- Expressions, each for itself. -/
def piecesAll : List Expr → List (List Piece)
  | [] => []
  | e :: es => pieces 0 e :: piecesAll es

end

mutual

/-- Names are identifiers, integers are in range, strings are made of escapes and ordinary
characters, and a cell has an index. -/
def isWellFormed : Expr → Bool
  | id name => isName name.toList
  | int value => 0 ≤ value && value < Number.signedLimit
  | float _ => true
  | str text => isStringBody text.toList
  | bool _ => true
  | array elements => allWellFormed elements
  | cell name indices => isName name.toList && !indices.isEmpty && allWellFormed indices
  | call name args => isName name.toList && allWellFormed args
  | binary _ left right => left.isWellFormed && right.isWellFormed
  | unary _ operand => operand.isWellFormed

def allWellFormed : List Expr → Bool
  | [] => true
  | e :: es => e.isWellFormed && allWellFormed es

end

end Expr

/-! ### Types and variables -/

/-- The keyword of a type of single values. -/
def PrimTy.keyword : PrimTy → String
  | integer => "integer"
  | float => "float"
  | string => "string"
  | boolean => "boolean"

namespace Ty

def pieces : Ty → List Piece
  | prim p => [mark p.keyword]
  | auto => [mark "auto"]
  | void => [mark "void"]
  | array dimensions element =>
    mark "array" :: mark "[" :: (withCommas (dimensions.map fun n => [numeral n]) ++
      [mark "]", mark "of", mark element.keyword])

/-- A type of variables.  An array has a dimension, and its dimensions are in range. -/
def isOfVariable : Ty → Bool
  | prim _ | auto => true
  | void => false
  | array dimensions _ => !dimensions.isEmpty && dimensions.all (· < Number.unsignedLimit)

/-- A type that a function may return. -/
def isOfFunction (ty : Ty) : Bool := ty = void || ty.isOfVariable

end Ty

namespace VarDecl

def pieces (v : VarDecl) : List Piece :=
  word v.name.toList :: mark ":" :: (v.ty.pieces ++
    ((match v.init with
      | none => []
      | some e => mark "=" :: e.pieces 0) ++ [mark ";"]))

def isWellFormed (v : VarDecl) : Bool :=
  isName v.name.toList && v.ty.isOfVariable && v.init.all Expr.isWellFormed

end VarDecl

namespace Assign

def pieces (a : Assign) : List Piece :=
  a.target.toExpr.pieces 0 ++ mark "=" :: a.value.pieces 0

def isWellFormed (a : Assign) : Bool := a.target.toExpr.isWellFormed && a.value.isWellFormed

end Assign

/-! ### Statements -/

namespace Stmt

mutual

def pieces : Stmt → List Piece
  | block body => mark "\x7b" :: (piecesAll body ++ [mark "\x7d"])
  | ifThen condition body =>
    mark "if" :: mark "(" :: (condition.pieces 0 ++ mark ")" :: pieces body)
  | ifElse condition thenBranch elseBranch =>
    mark "if" :: mark "(" :: (condition.pieces 0 ++ mark ")" ::
      (pieces thenBranch ++ mark "else" :: pieces elseBranch))
  | whileLoop condition body =>
    mark "while" :: mark "(" :: (condition.pieces 0 ++ mark ")" :: pieces body)
  | doLoop body condition =>
    mark "do" :: mark "\x7b" :: (piecesAll body ++
      mark "\x7d" :: mark "while" :: mark "(" :: (condition.pieces 0 ++ [mark ")", mark ";"]))
  | forLoop init condition update body =>
    mark "for" :: mark "(" :: (init.pieces ++ mark "," :: (condition.pieces 0 ++ mark "," ::
      (update.pieces 0 ++ mark ")" :: pieces body)))
  | breakLoop => [mark "break", mark ";"]
  | continueLoop => [mark "continue", mark ";"]
  | ret none => [mark "return", mark ";"]
  | ret (some e) => mark "return" :: (e.pieces 0 ++ [mark ";"])
  | call name args => (Expr.call name args).pieces 0 ++ [mark ";"]
  | assign a => a.pieces ++ [mark ";"]
  | declare v => v.pieces

/-- Statements one after the other. -/
def piecesAll : List Stmt → List Piece
  | [] => []
  | s :: ss => pieces s ++ piecesAll ss

end

/-- The statement ends with an `if` that has no `else`. -/
def endsOpen : Stmt → Bool
  | ifThen .. => true
  | ifElse _ _ elseBranch => elseBranch.endsOpen
  | whileLoop _ body | forLoop _ _ _ body => body.endsOpen
  | _ => false

mutual

/-- Variables are declared in blocks only, and no `else` follows an `if` that would take it. -/
def isWellFormed : Stmt → Bool
  | block body => itemsWellFormed body
  | ifThen condition body => condition.isWellFormed && isWellFormed body
  | ifElse condition thenBranch elseBranch =>
    condition.isWellFormed && isWellFormed thenBranch && !thenBranch.endsOpen &&
      isWellFormed elseBranch
  | whileLoop condition body => condition.isWellFormed && isWellFormed body
  | doLoop body condition => itemsWellFormed body && condition.isWellFormed
  | forLoop init condition update body =>
    init.isWellFormed && condition.isWellFormed && update.isWellFormed && isWellFormed body
  | breakLoop | continueLoop => true
  | ret value => value.all Expr.isWellFormed
  | call name args => (Expr.call name args).isWellFormed
  | assign a => a.isWellFormed
  | declare _ => false

/-- The items of a block: statements, and variables that are declared there. -/
def itemsWellFormed : List Stmt → Bool
  | [] => true
  | declare v :: ss => v.isWellFormed && itemsWellFormed ss
  | s :: ss => isWellFormed s && itemsWellFormed ss

end

end Stmt

/-! ### Declarations -/

namespace Param

def pieces (p : Param) : List Piece :=
  (if p.inherit then [mark "inherit"] else []) ++ ((if p.out then [mark "out"] else []) ++
    word p.name.toList :: mark ":" :: p.ty.pieces)

def isWellFormed (p : Param) : Bool := isName p.name.toList && p.ty.isOfVariable

end Param

namespace FuncDecl

def pieces (f : FuncDecl) : List Piece :=
  word f.name.toList :: mark ":" :: mark "function" :: (f.returnType.pieces ++
    mark "(" :: (withCommas (f.params.map Param.pieces) ++ mark ")" ::
      ((match f.parent with
        | none => []
        | some parent => [mark "inherit", word parent.toList]) ++ (Stmt.block f.body).pieces)))

def isWellFormed (f : FuncDecl) : Bool :=
  isName f.name.toList && f.returnType.isOfFunction && f.params.all Param.isWellFormed &&
    f.parent.all (fun parent => isName parent.toList) && Stmt.itemsWellFormed f.body

end FuncDecl

namespace Decl

def pieces : Decl → List Piece
  | func f => f.pieces
  | var v => v.pieces

def isWellFormed : Decl → Bool
  | func f => f.isWellFormed
  | var v => v.isWellFormed

end Decl

namespace Program

/-- The pieces of a printed program. -/
def pieces (p : Program) : List Piece := p.decls.flatMap Decl.pieces

/-- A program that has a text: it has a declaration, and all of them have one. -/
def isWellFormed (p : Program) : Bool := !p.decls.isEmpty && p.decls.all Decl.isWellFormed

end Program

end Mt22
