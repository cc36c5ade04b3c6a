import Mt22.Tree.Basic

/-!
# Sketches of trees

A tree can be drawn by hand: a sketch gives rules and source text, and the offsets follow from
the text.  Nothing ties a sketch to the grammar.
-/

namespace Mt22

/-- A tree drawn without offsets: a node is made of source text and of further nodes. -/
inductive Sketch where
  | text (s : List Char)
  | node (rule : Rule) (parts : List Sketch)

namespace Sketch

mutual

/-- The source text of a sketch. -/
def source : Sketch → List Char
  | text s => s
  | node _ parts => sourceAll parts

/-- The source text of a list of sketches. -/
def sourceAll : List Sketch → List Char
  | [] => []
  | s :: rest => s.source ++ sourceAll rest

end

mutual

/-- The tree of a sketch whose text starts at a byte offset: every node spans exactly its text. -/
def toTree (offset : Nat) : Sketch → Tree
  | text s => .token s
  | node r parts => .node r offset (offset + Text.byteSize (sourceAll parts)) (toTrees offset parts)

/-- The trees of sketches that stand one after the other. -/
def toTrees (offset : Nat) : List Sketch → List Tree
  | [] => []
  | s :: rest => s.toTree offset :: toTrees (offset + Text.byteSize s.source) rest

end

end Sketch

end Mt22
