import Mt22.Grammar.Rule
import Mt22.Text.Position

/-!
# Syntax trees

A syntax tree keeps the whole text it stands for: its leaves are the tokens and the trivia
between them, in order, and its nodes are the rules that were read.  A node also carries the
byte offsets at which its text starts and stops.

* `Tree.text`: the text under a tree.
* `Tree.children`: the nodes directly below a node.
* `Tree.tokens`: the tokens under a tree, a string literal being one token.
* `Tree.outline`: rules and spans, as text.
-/

namespace Mt22

/-- A syntax tree. -/
inductive Tree where
  | token (text : List Char)
  | trivia (text : List Char)
  | node (rule : Rule) (start stop : Nat) (parts : List Tree)

namespace Tree

mutual

/-- The text that a tree stands for. -/
def text : Tree → List Char
  | token s => s
  | trivia s => s
  | node _ _ _ parts => textAll parts

/-- The text that a list of trees stands for. -/
def textAll : List Tree → List Char
  | [] => []
  | t :: ts => t.text ++ textAll ts

end

/-- The text that a tree stands for, as a string. -/
def string (t : Tree) : String := String.ofList t.text

theorem textAll_eq_flatMap (ts : List Tree) : textAll ts = ts.flatMap text := by
  induction ts with
  | nil => rfl
  | cons t ts ih => simp [textAll, ih]

/-- The tree is a node. -/
def isNode : Tree → Bool
  | node .. => true
  | _ => false

/-- The trees of which a node is made. -/
def parts : Tree → List Tree
  | node _ _ _ ps => ps
  | _ => []

/-- The rule of a node. -/
def rule? : Tree → Option Rule
  | node r _ _ _ => some r
  | _ => none

/-- The name of the rule of a node. -/
def ruleName (t : Tree) : String := (t.rule?.map Rule.name).getD ""

/-- The byte offset at which a node starts. -/
def start : Tree → Nat
  | node _ a _ _ => a
  | _ => 0

/-- The byte offset at which a node stops. -/
def stop : Tree → Nat
  | node _ _ b _ => b
  | _ => 0

/-- The nodes of a list of trees. -/
def nodes (ts : List Tree) : List Tree := ts.filter isNode

/-- The nodes directly below a node. -/
def children (t : Tree) : List Tree := nodes t.parts

mutual

/-- The tokens of a tree, in order.  A string literal is one token, with its quotes. -/
def tokens : Tree → List (List Char)
  | token s => [s]
  | trivia _ => []
  | node .strLit _ _ parts => [textAll parts]
  | node _ _ _ parts => tokensAll parts

/-- The tokens of a list of trees. -/
def tokensAll : List Tree → List (List Char)
  | [] => []
  | t :: ts => t.tokens ++ tokensAll ts

end

mutual

/-- The rule and the span of a node, followed by the outlines of its children. -/
def outline : Tree → String
  | node r a b parts =>
    let inner := outlineAll parts
    let mark := r.name ++ "[" ++ toString a ++ "-" ++ toString b ++ "]"
    if inner.isEmpty then mark else mark ++ "(" ++ " ".intercalate inner ++ ")"
  | _ => ""

/-- The outlines of the nodes of a list of trees. -/
def outlineAll : List Tree → List String
  | [] => []
  | t :: ts => if t.isNode then t.outline :: outlineAll ts else outlineAll ts

end

end Tree

end Mt22
