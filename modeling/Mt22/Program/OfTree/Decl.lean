import Mt22.Program.OfTree.Stmt

/-!
# Programs of trees

`Program.ofTree` makes a program of a syntax tree, or finds its first fault.  It trusts nothing:
the tree may have been drawn by hand.
-/

namespace Mt22

/-- A parameter: its marks, its name and its type. -/
def Param.ofTree (t : Tree) : Except Fault Param :=
  t.visitAll do
    let inherit ← Visit.flag .kwInherit
    let out ← Visit.flag .kwOut
    let name ← Visit.expect .identifier
    let ty ← Ty.ofVarType (← Visit.expect .varType).tree
    return ⟨name.tree.string, ty, out, inherit⟩

/-- The parameters of a function. -/
def Param.listOfTree (t : Tree) : Except Fault (List Param) :=
  t.visitAll do
    let params ← Visit.many .paramDecl
    params.mapM fun c => Param.ofTree c.tree

/-- A function.  A second name can only be that of its parent. -/
def FuncDecl.ofTree (t : Tree) : Except Fault FuncDecl :=
  t.visitAll do
    let name ← Visit.expect .identifier
    let returnType ← Ty.ofFuncType (← Visit.expect .funcType).tree
    let params ← match ← Visit.optional .paramList with
      | some list => Param.listOfTree list.tree
      | none => pure []
    let parent ← Visit.optional .identifier
    let body ← Stmt.ofBlock (← Visit.expect .block).tree
    return ⟨name.tree.string, returnType, params, parent.map (·.tree.string), body⟩

/-- The declarations of a `declaration` node: one function, or the variables of a group. -/
def Decl.ofTree (t : Tree) : Except Fault (List Decl) :=
  t.visitAll do
    let form ← Visit.next
    match form.rule with
    | .funcDecl => return [.func (← FuncDecl.ofTree form.tree)]
    | .varDecl => return (← VarDecl.ofGroup form.tree).map .var
    | r => Visit.violation (.unexpected .declaration r)

namespace Program

/-- The program of a `program` node. -/
def ofTree (t : Tree) : Except Fault Program :=
  t.visitAll do
    let declarations ← Visit.many .declaration
    let decls ← declarations.mapM fun c => Decl.ofTree c.tree
    let _ ← Visit.expect .eoi
    return ⟨decls.flatten⟩

/-- The functions that are made of a tree before its first fault. -/
def functionsBeforeFault (t : Tree) : List FuncDecl :=
  let read := (t.children.takeWhile (·.rule? = some .declaration)).map Decl.ofTree
  let decls := (read.takeWhile Except.isOk).flatMap fun
    | .ok ds => ds
    | .error _ => []
  decls.filterMap fun
    | .func f => some f
    | .var _ => none

end Program

end Mt22
