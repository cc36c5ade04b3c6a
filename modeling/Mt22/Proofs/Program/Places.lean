import Mt22.Proofs.Program.Draw
import Mt22.Proofs.Tree.Residual

/-!
# Faults and their places

Making a program of a tree examines some children of its nodes (`Tree.examined`), and asks of them
what the rule of the node says (`Rule.demand`).  What can be wrong with a node is of two kinds: the
children that are examined do not stand as its rule has them (`Tree.Misplaces`), or one of them has no
value, or there are more or fewer values than names (`Tree.Errs`).

A fault has a place, which says how far the tree was read when it is met.  It is a list of numbers: a
number for each node on the way down, that of the child into which the way goes.  A fault that a node
has by itself adds the number of the child at which it is met, and one more number if it is met only
when that child has been read.  Places are compared as words are, so a node comes before what is below
it, and a child before those that follow.
-/

namespace Mt22

open Mt22.Tree Mt22.Number

/-! ### What is examined -/

/-- The children that a node of a rule may have: with tokens between them, they fit the body of the
rule.  A token has none. -/
def Rule.Permits (r : Rule) (cs : List Tree) : Prop :=
  if r.kind = .token then cs = [] else r.body.Admits cs

/-- The rules whose nodes are taken by their text, or by their rule alone. -/
def Rule.isAtomic (r : Rule) : Bool :=
  r ∈ [.identifier, .intLit, .floatLit, .strBody, .kwInteger, .kwFloat, .kwBoolean, .kwString,
    .kwAuto, .kwVoid, .kwOut, .kwInherit, .kwTrue, .kwFalse, .concatOp, .relOp, .logicOp, .addOp,
    .mulOp, .notOp, .negOp, .breakStmt, .continueStmt, .eoi]

/-- The rules whose nodes are taken by their first child. -/
def Rule.isHeaded (r : Rule) : Bool := r ∈ [.literal, .strLit, .boolLit, .varType, .primType]

/-- The rules whose children are all examined. -/
def Rule.isWhole (r : Rule) : Bool :=
  !r.isAtomic && !r.isHeaded && r ∉ [.nameList, .dimensions, .funcType]

/-- The rules of lists that are not asked for an item. -/
def Rule.isOpenList (r : Rule) : Bool := r ∈ [.arguments, .paramList, .nameList, .initializers]

/-- The children of a node that are examined. -/
def Tree.examined (t : Tree) : List Tree :=
  match t.rule? with
  | none => []
  | some .nameList => t.children.takeWhile (·.rule? = some .identifier)
  | some .dimensions => t.children.takeWhile (·.rule? = some .intLit)
  | some .funcType =>
    if t.children.head?.bind rule? = some .kwVoid then t.children.take 1 else t.children
  | some r => if r.isAtomic then [] else if r.isHeaded then t.children.take 1 else t.children

/-- What a node of a rule asks of the children that are examined.  Dimensions are asked for an item by
the type that they belong to. -/
def Rule.demand (r : Rule) : Peg :=
  if r.isAtomic then .start
  else if r.isOpenList || r = .dimensions then .opt r.body
  else r.body

/-- What the root asks of its children. -/
def Peg.topLevel : Peg := .seq (.star (.call .declaration)) (.call .eoi)

/-! ### What can be wrong with a node -/

/-- The rule of the child that is out of place, or that there is none where one must stand.  The other
violations are not about the rule of a child. -/
def Violation.found? : Violation → Option (Option Rule)
  | exhausted => some none
  | expected _ found => some found
  | trailing rule | unexpected _ rule => some (some rule)
  | unknownBinary _ | unknownUnary _ | noDimensions | noIndices => none

namespace Tree

variable {t c : Tree} {q : List Nat} {f : Fault} {i : Nat}

/-- Of the children `cs` of which `e` is asked, the one with this number is the first out of place. -/
inductive Strays (t : Tree) (e : Peg) (cs : List Tree) : Nat → Fault → Prop
  | mk {done left : List Tree} {v : Violation} (hc : cs = done ++ left) (hb : e.Breaks done left)
      (hv : v.found? = some (left.head?.bind rule?)) : Strays t e cs done.length (.shape t v)

/-- The node is an operator before a node of its own tier. -/
def isSigned (t : Tree) : Bool :=
  match t.rule?, t.children.head?.bind rule? with
  | some .notExpr, some .notOp | some .negExpr, some .negOp => true
  | _, _ => false

/-- When a child is come to.  After an operator before a node of its own tier, all children are looked
at before that node is read. -/
def turn (t : Tree) (k : Nat) : Nat := if t.isSigned then min k 1 else k

/-- A list that stands where it must is asked for an item by the node above it. -/
inductive Lacks (t : Tree) : List Nat → Fault → Prop
  | dimensions {d : Tree} {cs : List Tree} (ht : t.rule? = some .arrayType)
      (hc : t.children = d :: cs) (hd : d.rule? = some .dimensions) (hnone : d.examined = []) :
      Lacks t [0, 0] (.shape t .noDimensions)
  | indices {n a : Tree} {cs : List Tree} (ht : t.rule? = some .arrayCell)
      (hc : t.children = n :: a :: cs) (ha : a.rule? = some .arguments) (hnone : a.children = []) :
      Lacks t [1, 0] (.shape t .noIndices)

/-- A child of the node is out of place, or one is missing. -/
inductive Misplaces (t : Tree) : List Nat → Fault → Prop
  | child {r : Rule} {k : Nat} {f : Fault} (ht : t.rule? = some r)
      (h : t.Strays r.demand t.examined k f) : Misplaces t [t.turn k] f
  | item {q : List Nat} {f : Fault} (h : t.Lacks q f) : Misplaces t q f

/-- A child of the node has no value, or there are more or fewer values than names. -/
inductive Errs (t : Tree) : List Nat → Fault → Prop
  | binary {o : Tree} {k i : Nat} (hk : k < 5) (ht : t.rule? = some (Expr.tierRule k))
      (ho : t.children[i]? = some o) (hr : o.rule? = some (opRule k))
      (hv : BinaryOp.ofSymbol? o.string = none) :
      Errs t [i, 0] (.shape t (.unknownBinary o.string))
  | unary {o : Tree} {cs : List Tree} (s : UnaryOp) (ht : t.rule? = some (Expr.tierRule s.tier))
      (hc : t.children = o :: cs) (hr : o.rule? = some s.rule)
      (hv : UnaryOp.ofSymbol? o.string = none) :
      Errs t [0, 0] (.shape t (.unknownUnary o.string))
  | integer {n : Tree} {cs : List Tree} (ht : t.rule? = some .literal)
      (hc : t.children = n :: cs) (hr : n.rule? = some .intLit)
      (hv : readSigned64? (Literal.withoutSeparators n.text) = none) :
      Errs t [0, 0] (.integerRange n)
  | float {n : Tree} {cs : List Tree} (ht : t.rule? = some .literal)
      (hc : t.children = n :: cs) (hr : n.rule? = some .floatLit)
      (hv : Binary64.read? (Literal.withLeadingZero (Literal.withoutSeparators n.text)) = none) :
      Errs t [0, 0] (.notANumber n)
  | dimension {n : Tree} {i : Nat} (ht : t.rule? = some .dimensions)
      (hn : t.examined[i]? = some n)
      (hv : readUnsigned64? (Literal.withoutSeparators n.text) = none) :
      Errs t [i, 0] (.dimensionRange n)
  /-- The list of names is the first child, and the list of values the third. -/
  | count {ns ty vs : Tree} {rest : List Tree} {n : Nat} (ht : t.rule? = some .varDecl)
      (hc : t.children = ns :: ty :: vs :: rest) (hns : ns.rule? = some .nameList)
      (hvs : vs.rule? = some .initializers)
      (hn : n = (ns.children.takeWhile (·.rule? = some .identifier)).length)
      (hall : ∀ e ∈ vs.children, e.rule? = some .expression) (hne : n ≠ vs.children.length) :
      Errs t [2, vs.children.length] (.initializerCount t n vs.children.length)

/-! ### What can be wrong with a tree -/

/-- A fault that a node has, or one that is examined below it. -/
inductive Along (P : Tree → List Nat → Fault → Prop) : Tree → List Nat → Fault → Prop
  | self {t : Tree} {q : List Nat} {f : Fault} (h : P t q f) : Along P t q f
  | child {t c : Tree} {i : Nat} {q : List Nat} {f : Fault} (hc : t.examined[i]? = some c)
      (h : Along P c q f) : Along P t (i :: q) f

/-- A child is out of place in a tree that a program is to be made of: the root has declarations and
the end of input, and each declaration is as the grammar has it. -/
inductive Misplaced (t : Tree) : List Nat → Fault → Prop
  | root {k : Nat} {f : Fault} (h : t.Strays .topLevel t.children k f) : Misplaced t [k] f
  | below {d : Tree} {i : Nat} {q : List Nat} {f : Fault} (hd : t.children[i]? = some d)
      (h : Along Misplaces d q f) : Misplaced t (i :: q) f

/-- Something else is wrong in a tree that a program is to be made of. -/
inductive Mistaken (t : Tree) : List Nat → Fault → Prop
  | below {d : Tree} {i : Nat} {q : List Nat} {f : Fault} (hd : t.children[i]? = some d)
      (h : Along Errs d q f) : Mistaken t (i :: q) f

end Tree

end Mt22
