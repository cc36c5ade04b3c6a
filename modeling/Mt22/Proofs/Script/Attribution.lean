import Mt22.Proofs.Number.Spelling
import Mt22.Proofs.Program.InOrder
import Mt22.Proofs.Script.Accept
import Mt22.Proofs.Script.Nested

/-!
# Whom a failure is charged to

No program is made of a tree for a reason that a node of the tree has, also where the tree was drawn
by hand and is none of the grammar.  The diagnostic of the failure has the place of that node and
tells the reason (`Tree.Explains`, `Script.charges_failures`).
-/

namespace Mt22

open Mt22.Tree Mt22.Number Mt22.Text

/-- The diagnostic has the place of the node: it is located where the node starts, and its span is the
node's. -/
def Script.Marks (s : Script) (n : Tree) (d : Diagnostic) : Prop :=
  let start := s.locate (positionAt s.source n.start)
  let stop := s.locate (positionAt s.source n.stop)
  d.location = some start ∧ d.span = some ⟨start, stop⟩

/-- The diagnostic tells what is wrong with the node `n` of the tree `t`. -/
inductive Tree.Explains (t n : Tree) (d : Diagnostic) : Prop
  | contract (r : Rule) (message : String) (hr : n.rule? = some r)
      (hd : d = .contract (r.name ++ ": " ++ message) ("mt22.lower." ++ r.name) d.location d.span)
  | float (l : Tree) (hl : l.Within t) (hlr : l.rule? = some .literal) (hn : n ∈ l.children)
      (hr : n.rule? = some .floatLit)
      (htext : ¬ Literal.IsFloatText (Literal.withoutSeparators n.text))
      (hd : d = .contract ("Float literal " ++ n.string ++ " is not a number.")
        "mt22.lower.literal.float_value" d.location d.span)
  | integer (l : Tree) (hl : l.Within t) (hlr : l.rule? = some .literal) (hn : n ∈ l.children)
      (hr : n.rule? = some .intLit)
      (htext : ¬ ∃ v : Int, Spells (Literal.withoutSeparators n.text) v ∧
        -signedLimit ≤ v ∧ v < signedLimit)
      (hd : d = .literal ("Integer literal " ++ n.string ++ " does not fit in 64 bits.")
        d.location d.span)
  /-- A dimension is no negative number, and is written without a minus sign. -/
  | dimension (l : Tree) (hl : l.Within t) (hlr : l.rule? = some .dimensions) (hn : n ∈ l.children)
      (hr : n.rule? = some .intLit)
      (htext : ¬ ∃ ds, (Literal.withoutSeparators n.text = ds ∨
        Literal.withoutSeparators n.text = '+' :: ds) ∧ IsDigits ds ∧ digitsValue ds < unsignedLimit)
      (hd : d = .literal ("Array dimension " ++ n.string ++ " is too large.") d.location d.span)
  | count (ns ty vs : Tree) (rest : List Tree) (names values : Nat) (hr : n.rule? = some .varDecl)
      (hc : n.children = ns :: ty :: vs :: rest) (hns : ns.rule? = some .nameList)
      (hvs : vs.rule? = some .initializers)
      (hnames : names = (ns.children.takeWhile (·.rule? = some .identifier)).length)
      (hall : ∀ e ∈ vs.children, e.rule? = some .expression) (hvalues : values = vs.children.length)
      (hne : names ≠ values)
      (hd : d = ⟨.error, "Declaration of " ++ toString names ++ " variable(s) has " ++
        toString values ++ " initializer(s).", "mt22.lower.decl.lower_var_decl", d.location, d.span⟩)

/-- A text that is not read is none of those that are. -/
theorem not_of_read?_eq_none {α : Type} {x : Option α} {p : Prop} (hiff : x.isSome = true ↔ p)
    (h : x = none) : ¬ p := by
  rw [← hiff, h]
  exact Bool.false_ne_true

namespace Tree

variable {t u : Tree} {q : List Nat} {f : Fault}

/-- The node at fault is the one that has no value, or whose child has none. -/
theorem Errs.node_within (h : u.Errs q f) (hu : u.Within t) : f.node.Within t := by
  have hchild : ∀ {n}, n ∈ u.children → n.Within t := fun hn => .trans (.child hn (.self _)) hu
  cases h with
  | binary | unary | count => exact hu
  | integer _ hc | float _ hc => exact hchild (hc ▸ List.mem_cons_self)
  | dimension _ hn => exact hchild (mem_children_of_examined (List.mem_of_getElem? hn))

theorem explains_shape (t : Tree) (hu : u.isNode = true) (v : Violation) (s : Script) :
    t.Explains u (s.diagnose (.faulty (.shape u v))) := by
  cases u with
  | token | trivia => cases hu
  | node r a b ps => exact .contract r v.message rfl rfl

theorem Errs.explains (h : u.Errs q f) (hu : u.Within t) (hn : u.isNode = true) (s : Script) :
    t.Explains f.node (s.diagnose (.faulty f)) := by
  cases h with
  | binary | unary => exact explains_shape t hn _ s
  | integer ht hc hr hv =>
    exact .integer u hu ht (hc ▸ List.mem_cons_self) hr
      (not_of_read?_eq_none readSigned64?_isSome_iff hv) rfl
  | float ht hc hr hv =>
    exact .float u hu ht (hc ▸ List.mem_cons_self) hr
      (not_of_read?_eq_none Literal.read?_withLeadingZero_isSome_iff hv) rfl
  | dimension ht hn hv =>
    have hmem := List.mem_of_getElem? hn
    exact .dimension u hu ht (mem_children_of_examined hmem) (mem_examined_dimensions ht hmem)
      (not_of_read?_eq_none readUnsigned64?_isSome_iff hv) rfl
  | count ht hc hns hvs hn hall hne => exact .count _ _ _ _ _ _ ht hc hns hvs hn hall rfl hne rfl

/-- A fault of a tree is at one of its nodes, and the diagnostic tells what is wrong with it. -/
theorem Fails.explains (h : t.Fails q f) (ht : t.isNode = true) (s : Script) :
    f.node.Within t ∧ t.Explains f.node (s.diagnose (.faulty f)) := by
  rcases h with h | h
  · obtain ⟨u, v, hu, rfl⟩ := h.exists_shape
    exact ⟨hu, explains_shape t (hu.isNode ht) v s⟩
  · obtain ⟨u, p, hu, herrs⟩ := h.exists_errs
    exact ⟨herrs.node_within hu, herrs.explains hu (hu.isNode ht) s⟩

end Tree

namespace Script

/-- **Failures are charged to nodes.**  Whatever tree is given, a failure to make a program of it is
diagnosed at the place of one of its nodes, and by what is wrong with this node: its children are not
those of its rule, it is a number that has no value, or it is a group with another number of values
than of names. -/
theorem charges_failures (s : Script) (r : Rule) (a b : Nat) (ps : List Tree) (e : Failure)
    (h : lower (.node r a b ps) = .error e) :
    ∃ n : Tree, n.Within (.node r a b ps) ∧ s.Marks n (s.diagnose e) ∧
      (Tree.node r a b ps).Explains n (s.diagnose e) := by
  obtain ⟨f, hf, rfl⟩ := lower_error h
  obtain ⟨q, hq, -⟩ := (Program.settles_ofTree _).error f hf
  obtain ⟨hwithin, hexplains⟩ := Fails.explains hq rfl s
  exact ⟨f.node, hwithin, ⟨rfl, rfl⟩, hexplains⟩

/-- A group in which a name stands after a child that is none. -/
def brokenGroup : Tree :=
  .node .varDecl 3 5 [
    .node .nameList 3 5 [.node .identifier 3 4 [.token ['x']], .node .kwOut 4 4 [],
      .node .identifier 4 5 [.token ['y']]],
    .node .varType 5 5 [.node .kwAuto 5 5 []],
    .node .initializers 5 5 []]

theorem charges_failures_group :
    let s := Script.ofSource "drawn" "\u00e9\nxy"
    let ps := [Tree.node .declaration 0 5 [brokenGroup], .node .eoi 5 5 []]
    ∃ e, lower (.node .program 0 5 ps) = .error e ∧
      (s.diagnose e).report =
        "MT22 | ERROR | drawn:2:1 | Declaration of 1 variable(s) has 0 initializer(s)." ∧
      ∃ n : Tree, n.Within (.node .program 0 5 ps) ∧ s.Marks n (s.diagnose e) ∧
        (Tree.node .program 0 5 ps).Explains n (s.diagnose e) := by
  intro s ps
  have hreport : (match lower (.node .program 0 5 ps) with
      | .ok _ => ""
      | .error e => (s.diagnose e).report) =
        "MT22 | ERROR | drawn:2:1 | Declaration of 1 variable(s) has 0 initializer(s)." := by
    decide +kernel
  cases h : lower (.node .program 0 5 ps) with
  | ok p =>
    rw [h] at hreport
    exact absurd hreport (of_decide_eq_false rfl : ¬ "" = _)
  | error e =>
    rw [h] at hreport
    exact ⟨e, rfl, hreport, charges_failures s .program 0 5 ps e h⟩

end Script

end Mt22
