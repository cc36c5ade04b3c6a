import Mt22.Program.OfTree.Value

/-!
# Types of trees
-/

namespace Mt22

/-- The type that a keyword names. -/
def PrimTy.ofTree (t : Tree) : Except Fault PrimTy :=
  t.visit do
    let keyword ← Visit.next
    match keyword.rule with
    | .kwInteger => return .integer
    | .kwFloat => return .float
    | .kwString => return .string
    | .kwBoolean => return .boolean
    | r => Visit.violation (.unexpected .primitiveType r)

namespace Ty

/-- An array type: its dimensions, one at least, and its elements. -/
def ofArrayType (t : Tree) : Except Fault Ty :=
  t.visitAll do
    let list ← Visit.expect .dimensions
    let tokens ← list.tree.visit (Visit.many .intLit)
    let dimensions ← tokens.mapM fun c => Literal.dimension c.tree
    if dimensions.isEmpty then Visit.violation .noDimensions
    let element ← Visit.expect .primType
    return .array dimensions (← PrimTy.ofTree element.tree)

/-- The type of a variable. -/
def ofVarType (t : Tree) : Except Fault Ty :=
  t.visit do
    let form ← Visit.next
    match form.rule with
    | .primType => return .prim (← PrimTy.ofTree form.tree)
    | .kwAuto => return .auto
    | .arrayType => ofArrayType form.tree
    | r => Visit.violation (.unexpected .typeForm r)

/-- The type that a function returns. -/
def ofFuncType (t : Tree) : Except Fault Ty :=
  t.visit do
    if ← Visit.flag .kwVoid then return .void
    let ty ← Visit.expect .varType
    let ty ← ofVarType ty.tree
    Visit.finish
    return ty

end Ty

end Mt22
