import Mt22.Tree.Fault

/-!
# Visiting the children of a node

A visit takes the children of a node one by one, from the left.  It says at each step which rule
must stand there, which may, or that any may, and faults when the node is built differently.
Each child is known to lie below its parent, so that a visit can go on into it.
-/

namespace Mt22

namespace Tree

/-- A child of `t`: a node below it, with its rule. -/
structure Child (t : Tree) where
  rule : Rule
  tree : Tree
  rule?_eq : tree.rule? = some rule
  sizeOf_lt : sizeOf tree < sizeOf t

theorem sizeOf_lt_of_mem_parts {t c : Tree} (h : c ∈ t.parts) : sizeOf c < sizeOf t := by
  cases t with
  | token => simp [parts] at h
  | trivia => simp [parts] at h
  | node r a b ps =>
    have := List.sizeOf_lt_of_mem h
    simp only [parts, node.sizeOf_spec] at *
    omega

/-- A part of `t`, if it is a node. -/
def asChild? {t : Tree} : (c : Tree) → c ∈ t.parts → Option (Child t)
  | node r a b ps, h => some ⟨r, node r a b ps, rfl, sizeOf_lt_of_mem_parts h⟩
  | _, _ => none

/-- The children of a node, from the left. -/
def childList (t : Tree) : List (Child t) :=
  t.parts.attach.filterMap fun c => asChild? c.val c.property

end Tree

/-- A visit of the children of `t`, which takes some of those that are left or faults. -/
abbrev Visit (t : Tree) := StateT (List t.Child) (Except Fault)

namespace Visit

variable {t : Tree}

/-- The children are not those that the rule of the node promises. -/
def violation {α : Type} (v : Violation) : Visit t α := fun _ => .error (.shape t v)

/-- The next child, whatever its rule. -/
def next : Visit t t.Child
  | [] => .error (.shape t .exhausted)
  | c :: cs => .ok (c, cs)

/-- The next child, which must have a rule. -/
def expect (r : Rule) : Visit t t.Child
  | [] => .error (.shape t (.expected r none))
  | c :: cs => if c.rule = r then .ok (c, cs) else .error (.shape t (.expected r (some c.rule)))

/-- The next child if it has a rule; otherwise it is left. -/
def optional (r : Rule) : Visit t (Option t.Child)
  | [] => .ok (none, [])
  | c :: cs => if c.rule = r then .ok (some c, cs) else .ok (none, c :: cs)

/-- Whether the next child has a rule; if so it is taken. -/
def flag (r : Rule) : Visit t Bool := do return (← optional r).isSome

/-- All next children that have a rule, up to the first that has not. -/
def many (r : Rule) : Visit t (List t.Child) := fun cs =>
  .ok (cs.takeWhile (·.rule = r), cs.dropWhile (·.rule = r))

/-- No child is left. -/
def finish : Visit t Unit
  | [] => .ok ((), [])
  | c :: _ => .error (.shape t (.trailing c.rule))

end Visit

namespace Tree

/-- Visits the children of a node.  Children that the visit leaves are passed over. -/
def visit {α : Type} (t : Tree) (v : Visit t α) : Except Fault α :=
  (v t.childList).map (·.1)

/-- Visits all children of a node. -/
def visitAll {α : Type} (t : Tree) (v : Visit t α) : Except Fault α :=
  t.visit do
    let a ← v
    Visit.finish
    return a

end Tree

end Mt22
