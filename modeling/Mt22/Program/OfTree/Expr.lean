import Mt22.Program.OfTree.Value

/-!
# Expressions of trees

The tiers of the grammar, from the loosest to the tightest.  A tier with an operator applies it
to what the next tier gives; a tier without one is what its only operand is.

* `expression`: at most one `::`
* `relational`: at most one of `==`, `!=`, `<`, `<=`, `>` and `>=`
* `logical`: any number of `&&` and `||`, applied to the left
* `additive`: any number of `+` and `-`, applied to the left
* `multiplicative`: any number of `*`, `/` and `%`, applied to the left
* `not_expr`: any number of `!` before an operand
* `neg_expr`: any number of `-` before an operand
* `primary`: a literal, a name, a cell, a call, an array, or an expression in parentheses
-/

namespace Mt22

namespace Visit

variable {t : Tree}

/-- The operator that a child spells, between two operands. -/
def binaryOp (c : t.Child) : Visit t BinaryOp :=
  match BinaryOp.ofSymbol? c.tree.string with
  | some op => pure op
  | none => violation (.unknownBinary c.tree.string)

/-- The operator that a child spells, before an operand. -/
def unaryOp (c : t.Child) : Visit t UnaryOp :=
  match UnaryOp.ofSymbol? c.tree.string with
  | some op => pure op
  | none => violation (.unknownUnary c.tree.string)

/-- Operators and operands that follow `left`, applied to the left. -/
def applyLeft (operand opRule : Rule) (read : t.Child → Except Fault Expr) (left : Expr) :
    Visit t Expr
  | [] => .ok (left, [])
  | o :: cs =>
    if o.rule = opRule then do
      let (op, _) ← binaryOp o cs
      match cs with
      | [] => .error (.shape t (.expected operand none))
      | c :: rest =>
        if c.rule = operand then do
          let right ← read c
          applyLeft operand opRule read (.binary op left right) rest
        else .error (.shape t (.expected operand (some c.rule)))
    else .ok (left, o :: cs)

end Visit

namespace Expr

/-- An operand, or two with an operator between them. -/
def ofPair (t : Tree) (operand opRule : Rule) (read : t.Child → Except Fault Expr) :
    Except Fault Expr :=
  t.visitAll do
    let left ← read (← Visit.expect operand)
    match ← Visit.optional opRule with
    | none => return left
    | some o =>
      let op ← Visit.binaryOp o
      let right ← read (← Visit.expect operand)
      return .binary op left right

/-- Operands with operators between them, applied to the left: `a - b - c` is `(a - b) - c`. -/
def ofChain (t : Tree) (operand opRule : Rule) (read : t.Child → Except Fault Expr) :
    Except Fault Expr :=
  t.visitAll do
    let left ← read (← Visit.expect operand)
    Visit.applyLeft operand opRule read left

/-- The operator at the head of a node and the node of the same tier that it stands before, if
there is one. -/
def signStep (opRule tier : Rule) (t : Tree) : Except Fault (Option (UnaryOp × t.Child)) :=
  t.visit do
    match ← Visit.optional opRule with
    | none => return none
    | some o =>
      let op ← Visit.unaryOp o
      let inner ← Visit.expect tier
      Visit.finish
      return some (op, inner)

/-- The operators that stand before an operand, from the outside in, and the node that holds the
operand itself. -/
def signs (opRule tier : Rule) (t : Tree) :
    Except Fault (List UnaryOp × { d : Tree // sizeOf d ≤ sizeOf t }) := do
  match ← signStep opRule tier t with
  | none => return ([], ⟨t, Nat.le_refl _⟩)
  | some (op, inner) =>
    let (ops, d) ← signs opRule tier inner.tree
    return (op :: ops, ⟨d.val, Nat.le_trans d.property (Nat.le_of_lt inner.sizeOf_lt)⟩)
termination_by sizeOf t
decreasing_by exact inner.sizeOf_lt

/-- An operand with operators before it, applied from the inside out: `!!x` is `!(!x)`. -/
def ofSigned (t : Tree) (opRule tier operand : Rule)
    (read : (c : Tree) → sizeOf c < sizeOf t → Except Fault Expr) : Except Fault Expr := do
  let (ops, d) ← signs opRule tier t
  let e ← d.val.visitAll do
    let c ← Visit.expect operand
    read c.tree (Nat.lt_of_lt_of_le c.sizeOf_lt d.property)
  return ops.foldr .unary e

mutual

/-- The expression of an `expression` node. -/
def ofTree (t : Tree) : Except Fault Expr :=
  ofPair t .relational .concatOp fun c => ofRelational c.tree
termination_by sizeOf t
decreasing_by exact c.sizeOf_lt

def ofRelational (t : Tree) : Except Fault Expr :=
  ofPair t .logical .relOp fun c => ofLogical c.tree
termination_by sizeOf t
decreasing_by exact c.sizeOf_lt

def ofLogical (t : Tree) : Except Fault Expr :=
  ofChain t .additive .logicOp fun c => ofAdditive c.tree
termination_by sizeOf t
decreasing_by exact c.sizeOf_lt

def ofAdditive (t : Tree) : Except Fault Expr :=
  ofChain t .multiplicative .addOp fun c => ofMultiplicative c.tree
termination_by sizeOf t
decreasing_by exact c.sizeOf_lt

def ofMultiplicative (t : Tree) : Except Fault Expr :=
  ofChain t .notExpr .mulOp fun c => ofNot c.tree
termination_by sizeOf t
decreasing_by exact c.sizeOf_lt

def ofNot (t : Tree) : Except Fault Expr :=
  ofSigned t .notOp (t.rule?.getD .notExpr) .negExpr fun c _ => ofNeg c
termination_by sizeOf t

def ofNeg (t : Tree) : Except Fault Expr :=
  ofSigned t .negOp (t.rule?.getD .negExpr) .primary fun c _ => ofPrimary c
termination_by sizeOf t

def ofPrimary (t : Tree) : Except Fault Expr :=
  t.visitAll do
    let operand ← Visit.next
    match operand.rule with
    | .literal => ofLiteral operand.tree
    | .arrayCell =>
      let (name, indices) ← ofCell operand.tree
      return .cell name indices
    | .funcCall =>
      let (name, args) ← ofCall operand.tree
      return .call name args
    | .identifier => return .id operand.tree.string
    | .expression => ofTree operand.tree
    | .arrayLit => return .array (← ofArray operand.tree)
    | r => Visit.violation (.unexpected .primary r)
termination_by sizeOf t
decreasing_by all_goals exact operand.sizeOf_lt

/-- The elements of an array literal. -/
def ofArray (t : Tree) : Except Fault (List Expr) :=
  t.visitAll do
    match ← Visit.optional .arguments with
    | some args => ofArguments args.tree
    | none => return []
termination_by sizeOf t
decreasing_by exact args.sizeOf_lt

/-- Expressions with commas between them. -/
def ofArguments (t : Tree) : Except Fault (List Expr) :=
  t.visitAll do
    let args ← Visit.many .expression
    args.mapM fun c => ofTree c.tree
termination_by sizeOf t
decreasing_by exact c.sizeOf_lt

/-- The name of an array and the indices of a cell in it, one at least. -/
def ofCell (t : Tree) : Except Fault (String × List Expr) :=
  t.visitAll do
    let name ← Visit.expect .identifier
    let args ← Visit.expect .arguments
    let indices ← ofArguments args.tree
    if indices.isEmpty then Visit.violation .noIndices
    return (name.tree.string, indices)
termination_by sizeOf t
decreasing_by exact args.sizeOf_lt

/-- The name of a function and the arguments of a call of it. -/
def ofCall (t : Tree) : Except Fault (String × List Expr) :=
  t.visitAll do
    let name ← Visit.expect .identifier
    match ← Visit.optional .arguments with
    | some args => return (name.tree.string, ← ofArguments args.tree)
    | none => return (name.tree.string, [])
termination_by sizeOf t
decreasing_by exact args.sizeOf_lt

end

end Expr

/-- The target of an assignment. -/
def Target.ofTree (t : Tree) : Except Fault Target :=
  t.visitAll do
    let target ← Visit.next
    match target.rule with
    | .identifier => return .id target.tree.string
    | .arrayCell =>
      let (name, indices) ← Expr.ofCell target.tree
      return .cell name indices
    | r => Visit.violation (.unexpected .target r)

end Mt22
