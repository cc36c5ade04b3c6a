import Mathlib.Algebra.BigOperators.Group.List.Basic
import Mt22.Program.Stats
import Mt22.Proofs.Parsing.Operand
import Mt22.Proofs.Tree.Shapes

/-!
# Counting the nodes of a tree

`Tree.census` counts the functions, variables, parameters and statements of a syntax tree, on its
nodes as they stand: a variable is an identifier in the list of names of a group, global where the
group stands in a declaration, and local where it stands in a block.

A census is the sum over the nodes of a tree, so that it is that of the node itself with those of its
children (`Tree.census_eq`).  Below most rules there is nothing to count (`Tree.Is.census_eq_zero`).
-/

namespace Mt22

/-! ### Counts add up -/

namespace Stats

instance : Zero Stats := ⟨zero⟩

theorem zero_eq : (0 : Stats) = ⟨0, 0, 0, 0, 0⟩ := rfl

theorem add_eq (a b : Stats) : a + b = ⟨a.functions + b.functions, a.globals + b.globals,
    a.params + b.params, a.locals + b.locals, a.statements + b.statements⟩ := rfl

instance : AddCommMonoid Stats where
  zero_add a := by simp only [add_eq, zero_eq, Nat.zero_add]
  add_zero a := by simp only [add_eq, zero_eq, Nat.add_zero]
  add_assoc a b c := by simp only [add_eq, Nat.add_assoc]
  add_comm a b := by simp only [add_eq, Nat.add_comm]
  nsmul := nsmulRec

theorem nsmul_eq (n : Nat) (a : Stats) : n • a =
    ⟨n * a.functions, n * a.globals, n * a.params, n * a.locals, n * a.statements⟩ := by
  induction n with
  | zero => simp only [zero_nsmul, zero_eq, Nat.zero_mul]
  | succ n ih => simp only [succ_nsmul, ih, add_eq, Nat.succ_mul]

end Stats

namespace Tree

variable {t : Tree} {r : Rule}

/-! ### Nodes of a tree -/

mutual

/-- The nodes of a tree, each before those below it. -/
def preorder : Tree → List Tree
  | node r a b parts => node r a b parts :: preorderAll parts
  | _ => []

/-- The nodes of a list of trees. -/
def preorderAll : List Tree → List Tree
  | [] => []
  | t :: ts => t.preorder ++ preorderAll ts

end

theorem preorderAll_eq (ts : List Tree) : preorderAll ts = (nodes ts).flatMap preorder := by
  induction ts with
  | nil => rfl
  | cons t ts ih =>
    cases t with
    | token s | trivia s => exact ih
    | node r a b ps =>
      rw [preorderAll, ih]
      rfl

theorem preorder_eq (h : t.rule? = some r) : t.preorder = t :: t.children.flatMap preorder := by
  cases t with
  | token | trivia => cases h
  | node => rw [preorder, preorderAll_eq, children, parts]

/-- What stands below the trees at the end of a path of rules. -/
def follow : List Rule → List Tree → List Tree
  | [], ts => ts
  | r :: path, ts => follow path ((ts.filter (·.rule? = some r)).flatMap children)

theorem follow_append (path : List Rule) (ts us : List Tree) :
    follow path (ts ++ us) = follow path ts ++ follow path us := by
  induction path generalizing ts us with
  | nil => rfl
  | cons r path ih => rw [follow, follow, follow, List.filter_append, List.flatMap_append, ih]

/-- The counts of some nodes. -/
def censusOf (ts : List Tree) : Stats where
  functions := ts.countP (·.rule? = some .funcDecl)
  globals := (follow [.declaration, .varDecl, .nameList] ts).countP (·.rule? = some .identifier)
  params := ts.countP (·.rule? = some .paramDecl)
  locals := (follow [.block, .varDecl, .nameList] ts).countP (·.rule? = some .identifier)
  statements := ts.countP (·.rule? = some .statement)

/-- The counts of all nodes of a tree. -/
def census (t : Tree) : Stats := censusOf t.preorder

theorem censusOf_append (ts us : List Tree) : censusOf (ts ++ us) = censusOf ts + censusOf us := by
  show _ = Stats.mk _ _ _ _ _
  simp only [censusOf, follow_append, List.countP_append]

theorem censusOf_flatMap (ts : List Tree) (f : Tree → List Tree) :
    censusOf (ts.flatMap f) = (ts.map fun t => censusOf (f t)).sum := by
  induction ts with
  | nil => rfl
  | cons t ts ih => rw [List.flatMap_cons, censusOf_append, ih, List.map_cons, List.sum_cons]

/-- The counts of a tree are those of its root and of its children. -/
theorem census_eq (h : t.rule? = some r) :
    t.census = censusOf [t] + (t.children.map census).sum := by
  rw [census, preorder_eq h, ← List.singleton_append, censusOf_append, censusOf_flatMap]
  rfl

/-! ### Trees with nothing to count -/

end Tree

/-- The rules that are counted, and those that the names of variables are counted below. -/
def Rule.isCounted (r : Rule) : Bool :=
  r ∈ [.declaration, .funcDecl, .paramDecl, .block, .statement]

/-- The rules below which nothing is counted. -/
def Rule.isPlain (r : Rule) : Bool :=
  r ∉ [.program, .declaration, .funcDecl, .paramList, .paramDecl, .block, .statement, .ifStmt,
    .forStmt, .whileStmt, .doWhileStmt]

theorem Rule.isCounted_of_isPlain {r : Rule} (hr : r.isPlain = true) : r.isCounted = false := by
  cases r <;> first | rfl | cases hr

theorem Rule.isPlain_body {r : Rule} (hr : r.isPlain = true)
    (hk : r.kind = .plain ∨ r.kind = .compound) : ∀ r' ∈ r.body.calls, r'.isPlain = true := by
  have hall : ∀ r ∈ Rule.all, r.isPlain = true → r.kind = .plain ∨ r.kind = .compound →
      ∀ r' ∈ r.body.calls, r'.isPlain = true := by
    decide
  exact hall r r.mem_all hr hk

namespace Tree

variable {t : Tree} {r : Rule}

/-- A node that is not counted itself. -/
theorem censusOf_singleton (h : t.rule? = some r) (hr : r.isCounted = false) :
    censusOf [t] = 0 := by
  have hne : ∀ q : Rule, q.isCounted = true → t.rule? ≠ some q := by
    intro q hq heq
    obtain rfl := Option.some.inj (h.symm.trans heq)
    rw [hr] at hq
    cases hq
  simp [censusOf, follow, Stats.zero_eq, hne .declaration rfl, hne .funcDecl rfl,
    hne .paramDecl rfl, hne .block rfl, hne .statement rfl]

/-- Below a plain rule there is nothing to count. -/
theorem Is.census_eq_zero (h : Is r t) (hr : r.isPlain = true) : t.census = 0 := by
  obtain ⟨hrule, hc⟩ := h
  induction hc generalizing r with
  | @token r' a b w ha =>
    obtain rfl := Option.some.inj hrule
    rw [census_eq hrule, censusOf_singleton hrule (Rule.isCounted_of_isPlain hr)]
    rfl
  | @node r' a b ps kind tight fits parts ih =>
    obtain rfl := Option.some.inj hrule
    rw [census_eq hrule, censusOf_singleton hrule (Rule.isCounted_of_isPlain hr), zero_add]
    refine List.sum_eq_zero (List.forall_mem_map.mpr fun c hc => ?_)
    obtain ⟨hmem, hnode⟩ := List.mem_filter.mp hc
    cases c with
    | token | trivia => cases hnode
    | node q i j qs =>
      have hsolid : Tree.node q i j qs ∈ solid ps := List.mem_filter.mpr ⟨hmem, rfl⟩
      exact ih _ hmem hnode (Rule.isPlain_body hr kind q (fits.mem_calls _ hsolid q rfl)) rfl

theorem Conforms.census_child {c : Tree} (h : t.Conforms) (hmem : c ∈ t.children)
    (hc : c.rule? = some r) (hr : r.isPlain = true) : c.census = 0 :=
  Is.census_eq_zero ⟨hc, h.children c hmem⟩ hr

/-- The counts of a node that is not counted itself. -/
theorem census_of_not_counted (h : t.rule? = some r) (hr : r.isCounted = false) :
    t.census = (t.children.map census).sum := by
  rw [census_eq h, censusOf_singleton h hr, zero_add]

end Tree

end Mt22
