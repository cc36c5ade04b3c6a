import Mt22.Number.Binary64
import Mt22.Program.Operator

/-!
# Programs

The abstract syntax of MT22: a program is a list of declarations, one for each function and one
for each name of a variable group.  Parentheses, separators and the grouping of names are gone;
operators are applied to their operands.
-/

namespace Mt22

/-- A type of single values. -/
inductive PrimTy where
  | integer | float | string | boolean
deriving DecidableEq

/-- A type.  Only functions return `void`, and only a later analysis can say what `auto` stands
for. -/
inductive Ty where
  | prim (p : PrimTy)
  | auto
  | void
  | array (dimensions : List Nat) (element : PrimTy)
deriving DecidableEq

/-- An expression. -/
inductive Expr where
  | id (name : String)
  | int (value : Int)
  | float (value : Number.Binary64)
  | str (text : String)
  | bool (value : Bool)
  | array (elements : List Expr)
  | cell (name : String) (indices : List Expr)
  | call (name : String) (args : List Expr)
  | binary (op : BinaryOp) (left right : Expr)
  | unary (op : UnaryOp) (operand : Expr)

/-- What can be assigned to: a variable, or a cell of an array. -/
inductive Target where
  | id (name : String)
  | cell (name : String) (indices : List Expr)

/-- A target read as an expression. -/
def Target.toExpr : Target → Expr
  | id name => .id name
  | cell name indices => .cell name indices

/-- An assignment. -/
structure Assign where
  target : Target
  value : Expr

/-- A variable, local or global, with its type and its first value if it has one. -/
structure VarDecl where
  name : String
  ty : Ty
  init : Option Expr

/-- A statement. -/
inductive Stmt where
  | block (body : List Stmt)
  | ifThen (condition : Expr) (body : Stmt)
  | ifElse (condition : Expr) (thenBranch elseBranch : Stmt)
  | whileLoop (condition : Expr) (body : Stmt)
  | doLoop (body : List Stmt) (condition : Expr)
  | forLoop (init : Assign) (condition update : Expr) (body : Stmt)
  | breakLoop
  | continueLoop
  | ret (value : Option Expr)
  | call (name : String) (args : List Expr)
  | assign (assignment : Assign)
  | declare (var : VarDecl)

/-- A parameter of a function.  The two marks are independent of each other. -/
structure Param where
  name : String
  ty : Ty
  out : Bool
  inherit : Bool

/-- A function, with the function that it inherits from if there is one. -/
structure FuncDecl where
  name : String
  returnType : Ty
  params : List Param
  parent : Option String
  body : List Stmt

/-- A declaration of a program. -/
inductive Decl where
  | func (f : FuncDecl)
  | var (v : VarDecl)

/-- A program. -/
structure Program where
  decls : List Decl

end Mt22
