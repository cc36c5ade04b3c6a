import Mt22.Program.OfTree.Expr
import Mt22.Program.OfTree.Ty

/-!
# Statements of trees

A variable group `a, b: integer = 1, 2;` gives one variable for each of its names; inside a
block these stand side by side with the statements around them.
-/

namespace Mt22

namespace VarDecl

/-- The names of a variable group. -/
def names (t : Tree) : Except Fault (List String) :=
  t.visit do return (← Visit.many .identifier).map (·.tree.string)

/-- The initializers of a variable group. -/
def values (t : Tree) : Except Fault (List Expr) :=
  t.visitAll do
    let values ← Visit.many .expression
    values.mapM fun c => Expr.ofTree c.tree

/-- The variables of a group: they share their type, and either all of them have a value or none. -/
def ofGroup (t : Tree) : Except Fault (List VarDecl) :=
  t.visitAll do
    let names ← names (← Visit.expect .nameList).tree
    let ty ← Ty.ofVarType (← Visit.expect .varType).tree
    match ← Visit.optional .initializers with
    | none => return names.map fun n => ⟨n, ty, none⟩
    | some list =>
      let values ← values list.tree
      if values.length != names.length then throw (.initializerCount t names.length values.length)
      return List.zipWith (fun n e => ⟨n, ty, some e⟩) names values

end VarDecl

/-- An assignment: its target, then its value. -/
def Assign.ofTree (t : Tree) : Except Fault Assign :=
  t.visitAll do
    let target ← Target.ofTree (← Visit.expect .lhs).tree
    let value ← Expr.ofTree (← Visit.expect .expression).tree
    return ⟨target, value⟩

namespace Stmt

/-- A `return` statement. -/
def ofReturn (t : Tree) : Except Fault Stmt :=
  t.visitAll do
    match ← Visit.optional .expression with
    | some e => return .ret (some (← Expr.ofTree e.tree))
    | none => return .ret none

/-- A call that is a statement. -/
def ofCall (t : Tree) : Except Fault Stmt :=
  t.visitAll do
    let (name, args) ← Expr.ofCall (← Visit.expect .funcCall).tree
    return .call name args

/-- An assignment that is a statement. -/
def ofAssign (t : Tree) : Except Fault Stmt :=
  t.visitAll do return .assign (← Assign.ofTree (← Visit.expect .assign).tree)

mutual

/-- The statement of a `statement` node. -/
def ofTree (t : Tree) : Except Fault Stmt :=
  t.visitAll do
    let form ← Visit.next
    match form.rule with
    | .ifStmt => ofIf form.tree
    | .forStmt => ofFor form.tree
    | .whileStmt => ofWhile form.tree
    | .doWhileStmt => ofDo form.tree
    | .breakStmt => return .breakLoop
    | .continueStmt => return .continueLoop
    | .returnStmt => ofReturn form.tree
    | .block => return .block (← ofBlock form.tree)
    | .callStmt => ofCall form.tree
    | .assignStmt => ofAssign form.tree
    | r => Visit.violation (.unexpected .statement r)
termination_by sizeOf t
decreasing_by all_goals exact form.sizeOf_lt

def ofIf (t : Tree) : Except Fault Stmt :=
  t.visitAll do
    let condition ← Expr.ofTree (← Visit.expect .expression).tree
    let a ← Visit.expect .statement
    let thenBranch ← ofTree a.tree
    match ← Visit.optional .statement with
    | none => return .ifThen condition thenBranch
    | some b => return .ifElse condition thenBranch (← ofTree b.tree)
termination_by sizeOf t
decreasing_by
  · exact a.sizeOf_lt
  · exact b.sizeOf_lt

def ofFor (t : Tree) : Except Fault Stmt :=
  t.visitAll do
    let init ← Assign.ofTree (← Visit.expect .assign).tree
    let condition ← Expr.ofTree (← Visit.expect .expression).tree
    let update ← Expr.ofTree (← Visit.expect .expression).tree
    let body ← Visit.expect .statement
    return .forLoop init condition update (← ofTree body.tree)
termination_by sizeOf t
decreasing_by exact body.sizeOf_lt

def ofWhile (t : Tree) : Except Fault Stmt :=
  t.visitAll do
    let condition ← Expr.ofTree (← Visit.expect .expression).tree
    let body ← Visit.expect .statement
    return .whileLoop condition (← ofTree body.tree)
termination_by sizeOf t
decreasing_by exact body.sizeOf_lt

def ofDo (t : Tree) : Except Fault Stmt :=
  t.visitAll do
    let body ← Visit.expect .block
    let body ← ofBlock body.tree
    let condition ← Expr.ofTree (← Visit.expect .expression).tree
    return .doLoop body condition
termination_by sizeOf t
decreasing_by exact body.sizeOf_lt

/-- The statements of a block, each variable of a group being one. -/
def ofBlock (t : Tree) : Except Fault (List Stmt) := do
  let items ← t.childList.mapM fun c =>
    match c.rule with
    | .varDecl => do return (← VarDecl.ofGroup c.tree).map .declare
    | .statement => do return [← ofTree c.tree]
    | r => .error (.shape t (.unexpected .blockItem r))
  return items.flatten
termination_by sizeOf t
decreasing_by exact c.sizeOf_lt

end

end Stmt

end Mt22
