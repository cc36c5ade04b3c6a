import Mt22.Number.Layout
import Mt22.Program.Basic

/-!
# Dumps

The dump of a program shows its abstract syntax as text: a node is its kind with its fields in
parentheses, such as `BinExpr(+, IntegerLit(1), Id(a))`, and each declaration stands on a line
of its own.  Strings are written as they are.
-/

namespace Mt22

/-- Numbers of a dump: positional from `0.0001` up to sixteen digits before the point, and a tie
goes up. -/
def Expr.dumpLayout : Number.Layout where
  leastPositional := -4
  greatestPositional := 15
  signedExponent := false
  tie := .up
  infinity := "inf"
  minusInfinity := "-inf"
  notANumber := "NaN"

/-- Items with a comma and a blank between them. -/
def commas (items : List String) : String := ", ".intercalate items

def PrimTy.dump : PrimTy → String
  | .integer => "IntegerType"
  | .float => "FloatType"
  | .string => "StringType"
  | .boolean => "BooleanType"

def Ty.dump : Ty → String
  | .prim p => p.dump
  | .auto => "AutoType"
  | .void => "VoidType"
  | .array dimensions element =>
    "ArrayType([" ++ commas (dimensions.map toString) ++ "], " ++ element.dump ++ ")"

namespace Expr

mutual

def dump : Expr → String
  | id name => "Id(" ++ name ++ ")"
  | int value => "IntegerLit(" ++ toString value ++ ")"
  | float value => "FloatLit(" ++ dumpLayout.write value ++ ")"
  | str text => "StringLit(" ++ text ++ ")"
  | bool value => "BooleanLit(" ++ (if value then "true" else "false") ++ ")"
  | array elements => "ArrayLit([" ++ commas (dumpAll elements) ++ "])"
  | cell name indices => "ArrayCell(" ++ name ++ ", [" ++ commas (dumpAll indices) ++ "])"
  | call name args => "FuncCall(" ++ name ++ ", [" ++ commas (dumpAll args) ++ "])"
  | binary op left right =>
    "BinExpr(" ++ op.symbol ++ ", " ++ left.dump ++ ", " ++ right.dump ++ ")"
  | unary op operand => "UnExpr(" ++ op.symbol ++ ", " ++ operand.dump ++ ")"

def dumpAll : List Expr → List String
  | [] => []
  | e :: es => e.dump :: dumpAll es

end

theorem dumpAll_eq_map (es : List Expr) : dumpAll es = es.map dump := by
  induction es with
  | nil => rfl
  | cons e es ih => simp [dumpAll, ih]

end Expr

/-- A target is written as the expression that reads it. -/
def Target.dump (t : Target) : String := t.toExpr.dump

def Assign.dump (a : Assign) : String :=
  "AssignStmt(" ++ a.target.dump ++ ", " ++ a.value.dump ++ ")"

def VarDecl.dump (v : VarDecl) : String :=
  match v.init with
  | some e => "VarDecl(" ++ v.name ++ ", " ++ v.ty.dump ++ ", " ++ e.dump ++ ")"
  | none => "VarDecl(" ++ v.name ++ ", " ++ v.ty.dump ++ ")"

namespace Stmt

mutual

def dump : Stmt → String
  | block body => "BlockStmt([" ++ commas (dumpAll body) ++ "])"
  | ifThen condition body => "IfStmt(" ++ condition.dump ++ ", " ++ body.dump ++ ")"
  | ifElse condition a b => "IfStmt(" ++ condition.dump ++ ", " ++ a.dump ++ ", " ++ b.dump ++ ")"
  | whileLoop condition body => "WhileStmt(" ++ condition.dump ++ ", " ++ body.dump ++ ")"
  | doLoop body condition =>
    "DoWhileStmt(BlockStmt([" ++ commas (dumpAll body) ++ "]), " ++ condition.dump ++ ")"
  | forLoop init condition update body =>
    "ForStmt(" ++ init.dump ++ ", " ++ condition.dump ++ ", " ++ update.dump ++ ", " ++
      body.dump ++ ")"
  | breakLoop => "BreakStmt()"
  | continueLoop => "ContinueStmt()"
  | ret none => "ReturnStmt()"
  | ret (some value) => "ReturnStmt(" ++ value.dump ++ ")"
  | call name args => "CallStmt(" ++ name ++ ", [" ++ commas (args.map Expr.dump) ++ "])"
  | assign assignment => assignment.dump
  | declare var => var.dump

def dumpAll : List Stmt → List String
  | [] => []
  | s :: ss => s.dump :: dumpAll ss

end

theorem dumpAll_eq_map (ss : List Stmt) : dumpAll ss = ss.map dump := by
  induction ss with
  | nil => rfl
  | cons s ss ih => simp [dumpAll, ih]

end Stmt

def Param.dump (p : Param) : String :=
  (if p.inherit then "Inherit" else "") ++ (if p.out then "Out" else "") ++
    "Param(" ++ p.name ++ ", " ++ p.ty.dump ++ ")"

/-- A function without a parent shows `None` in its place. -/
def FuncDecl.dump (f : FuncDecl) : String :=
  "FuncDecl(" ++ f.name ++ ", " ++ f.returnType.dump ++ ", [" ++
    commas (f.params.map Param.dump) ++ "], " ++
    f.parent.getD "None" ++ ", BlockStmt([" ++ commas (f.body.map Stmt.dump) ++ "]))"

def Decl.dump : Decl → String
  | .func f => f.dump
  | .var v => v.dump

/-- The dump of a program. -/
def Program.dump (p : Program) : String :=
  "Program([\n" ++ String.join (p.decls.map fun d => "\t" ++ d.dump ++ "\n") ++ "])"

end Mt22
