import Mt22.Json.Basic
import Mt22.Program.Stats

/-!
# Programs as JSON

A value with fields is an object, a choice between forms is an object with one member named for
the form, and a form without fields is its name.
-/

namespace Mt22

/-- A form with its contents. -/
def Json.form (name : String) (contents : Json) : Json := .obj [(name, contents)]

def PrimTy.toJson : PrimTy → Json
  | .integer => .str "Integer"
  | .float => .str "Float"
  | .string => .str "String"
  | .boolean => .str "Boolean"

def Ty.toJson : Ty → Json
  | .prim p => p.toJson
  | .auto => .str "Auto"
  | .void => .str "Void"
  | .array dimensions element =>
    .form "Array" (.obj [("dimensions", .arr (dimensions.map fun n : Nat => .int n)),
      ("element", element.toJson)])

namespace Expr

mutual

def toJson : Expr → Json
  | id name => .form "Id" (.str name)
  | int value => .form "IntegerLit" (.int value)
  | float value => .form "FloatLit" (.float value)
  | str text => .form "StringLit" (.str text)
  | bool value => .form "BooleanLit" (.bool value)
  | array elements => .form "ArrayLit" (.arr (toJsonAll elements))
  | cell name indices =>
    .form "ArrayCell" (.obj [("name", .str name), ("indices", .arr (toJsonAll indices))])
  | call name args => .form "FuncCall" (.obj [("name", .str name), ("args", .arr (toJsonAll args))])
  | binary op left right =>
    .form "BinExpr" (.obj [("op", .str op.symbol), ("left", left.toJson), ("right", right.toJson)])
  | unary op operand => .form "UnExpr" (.obj [("op", .str op.symbol), ("operand", operand.toJson)])

def toJsonAll : List Expr → List Json
  | [] => []
  | e :: es => e.toJson :: toJsonAll es

end

end Expr

def Target.toJson (t : Target) : Json := t.toExpr.toJson

def Assign.toJson (a : Assign) : Json :=
  .obj [("target", a.target.toJson), ("value", a.value.toJson)]

def VarDecl.toJson (v : VarDecl) : Json :=
  .obj [("name", .str v.name), ("ty", v.ty.toJson), ("init", .ofOption Expr.toJson v.init)]

namespace Stmt

mutual

def toJson : Stmt → Json
  | block body => .form "Block" (.obj [("body", .arr (toJsonAll body))])
  | ifThen condition body =>
    .form "If" (.obj [("condition", condition.toJson), ("then_branch", body.toJson),
      ("else_branch", .null)])
  | ifElse condition a b =>
    .form "If" (.obj [("condition", condition.toJson), ("then_branch", a.toJson),
      ("else_branch", b.toJson)])
  | whileLoop condition body =>
    .form "While" (.obj [("condition", condition.toJson), ("body", body.toJson)])
  | doLoop body condition =>
    .form "DoWhile" (.obj [("body", .obj [("body", .arr (toJsonAll body))]),
      ("condition", condition.toJson)])
  | forLoop init condition update body =>
    .form "For" (.obj [("init", init.toJson), ("condition", condition.toJson),
      ("update", update.toJson), ("body", body.toJson)])
  | breakLoop => .str "Break"
  | continueLoop => .str "Continue"
  | ret value => .form "Return" (.ofOption Expr.toJson value)
  | call name args =>
    .form "Call" (.obj [("name", .str name), ("args", .arr (args.map Expr.toJson))])
  | assign assignment => .form "Assign" assignment.toJson
  | declare var => .form "VarDecl" var.toJson

def toJsonAll : List Stmt → List Json
  | [] => []
  | s :: ss => s.toJson :: toJsonAll ss

end

end Stmt

def Param.toJson (p : Param) : Json :=
  .obj [("name", .str p.name), ("ty", p.ty.toJson), ("out", .bool p.out),
    ("inherit", .bool p.inherit)]

def FuncDecl.toJson (f : FuncDecl) : Json :=
  .obj [("name", .str f.name), ("return_type", f.returnType.toJson),
    ("params", .arr (f.params.map Param.toJson)),
    ("inherit", .ofOption .str f.parent), ("body", .obj [("body", .arr (f.body.map Stmt.toJson))])]

def Decl.toJson : Decl → Json
  | .func f => .form "Func" f.toJson
  | .var v => .form "Var" v.toJson

/-- A program as JSON. -/
def Program.toJson (p : Program) : Json := .obj [("decls", .arr (p.decls.map Decl.toJson))]

/-- Counts as JSON. -/
def Stats.toJson (s : Stats) : Json :=
  .obj [("functions", .int s.functions), ("globals", .int s.globals), ("params", .int s.params),
    ("locals", .int s.locals),
    ("statements", .int s.statements)]

end Mt22
