import Mt22.Proofs.Program.MadeExpr

/-!
# Signs by a loop and by recursion

The tiers of `!` and of `-` nest one sign in each level of the tree.  A loop that walks down the levels
puts every sign on a stack, and takes the signs off again once the operand below them is known
(`Expr.signLoop`).  The plain definition is a recursion instead: a level with a sign is that sign
applied to what the level below it gives (`Expr.ofLevels`).

Nothing is assumed of the tree, so any level may be built wrongly.  What relates the two is that the
stack is the context that waits for the levels below (`Expr.signLoop_eq`), and that a level has a
result only if it has one of two forms (`Expr.ofSigned_ok`, `Expr.ofLevels_some`).
-/

namespace Mt22

open Mt22.Tree Mt22.Visit

namespace Tree

/-- Signs that stand before an operand, from the outside in, each in a level of its own.  All levels
have the rule of the first. -/
inductive Signed (opRule operand : Rule) : Tree → List Tree → Tree → Prop
  | operand {t d : Tree} (h : t.children = [d]) (hd : d.rule? = some operand) :
      Signed opRule operand t [] d
  | sign {t o u d : Tree} {os : List Tree} (h : t.children = [o, u]) (ho : o.rule? = some opRule)
      (hu : u.rule? = t.rule?) (hs : Signed opRule operand u os d) :
      Signed opRule operand t (o :: os) d

theorem rule?_of_children {t u : Tree} {ts : List Tree} (h : t.children = u :: ts) (r : Rule) :
    t.rule? = some (t.rule?.getD r) := by
  cases t with
  | token | trivia => cases h
  | node => rfl

end Tree

namespace Expr

variable {opRule operand tier : Rule} {read : Tree → Except Fault Expr} {next : Tree → Option Expr}
  {t : Tree} {e : Expr}

/-! ### The loop -/

/-- The signs of a stack, applied to an operand from the top of the stack on. -/
def applyStack (stack : List UnaryOp) (e : Expr) : Expr := stack.foldl (fun e op => .unary op e) e

/-- The walk down the levels of a tier, with the signs of the levels above on a stack, the last one on
top. -/
def signLoop (opRule tier operand : Rule) (read : Tree → Except Fault Expr) (stack : List UnaryOp)
    (t : Tree) : Except Fault Expr := do
  match ← signStep opRule tier t with
  | some (op, inner) => signLoop opRule tier operand read (op :: stack) inner.tree
  | none =>
    let e ← t.visitAll do
      let c ← expect operand
      read c.tree
    return applyStack stack e
termination_by sizeOf t
decreasing_by exact inner.sizeOf_lt

/-- The stack is the context of what is made of the levels below. -/
theorem signLoop_eq (stack : List UnaryOp) (t : Tree) :
    signLoop opRule tier operand read stack t =
      applyStack stack <$> ofSigned t opRule tier operand fun c _ => read c := by
  rw [signLoop, ofSigned_eq]
  cases signStep opRule tier t with
  | error f => rfl
  | ok s =>
    cases s with
    | none => rfl
    | some p =>
      -- below this level its sign is on top of the stack
      obtain ⟨op, inner⟩ := p
      simp only [ok_bind]
      rw [signLoop_eq (op :: stack) inner.tree]
      cases ofSigned inner.tree opRule tier operand fun c _ => read c with
      | error f => rfl
      | ok e => rfl
termination_by sizeOf t
decreasing_by exact inner.sizeOf_lt

theorem ofSigned_eq_signLoop :
    ofSigned t opRule tier operand (fun c _ => read c) =
      signLoop opRule tier operand read [] t := by
  rw [signLoop_eq]
  cases ofSigned t opRule tier operand fun c _ => read c <;> rfl

/-! ### The recursion -/

/-- What a level gives: its sign, applied to what the level below it gives, or what the next tier
makes of its only child. -/
def ofLevels (opRule operand : Rule) (next : Tree → Option Expr) (t : Tree) : Option Expr :=
  match t.childList with
  | [d] => if d.rule = operand then next d.tree else none
  | [o, u] =>
    if o.rule = opRule ∧ t.rule? = some u.rule then do
      let op ← UnaryOp.ofSymbol? o.tree.string
      let e ← ofLevels opRule operand next u.tree
      return .unary op e
    else none
  | _ => none
termination_by sizeOf t
decreasing_by exact u.sizeOf_lt

theorem ofLevels_one {d : Tree} (h : t.children = [d]) (hd : d.rule? = some operand) :
    ofLevels opRule operand next t = next d := by
  obtain ⟨c, hc, rfl⟩ := childList_one h
  rw [ofLevels, hc]
  exact if_pos (c.rule_eq hd)

theorem ofLevels_two {o u : Tree} {op : UnaryOp} (h : t.children = [o, u])
    (ho : o.rule? = some opRule) (hu : u.rule? = t.rule?)
    (hop : UnaryOp.ofSymbol? o.string = some op) :
    ofLevels opRule operand next t = .unary op <$> ofLevels opRule operand next u := by
  obtain ⟨c, d, hc, rfl, rfl⟩ := childList_two h
  rw [ofLevels, hc]
  simp only [c.rule_eq ho, ← hu, d.rule?_eq, and_self, if_true, hop, Option.bind_eq_bind,
    Option.bind_some]
  cases ofLevels opRule operand next d.tree <;> rfl

/-- A level with a result has a sign and a level below it, or only the operand. -/
theorem ofLevels_some (h : ofLevels opRule operand next t = some e) :
    (∃ d, t.children = [d] ∧ d.rule? = some operand ∧ next d = some e) ∨
      ∃ o u op x, t.children = [o, u] ∧ o.rule? = some opRule ∧ u.rule? = t.rule? ∧
        UnaryOp.ofSymbol? o.string = some op ∧ ofLevels opRule operand next u = some x ∧
        e = .unary op x := by
  rw [ofLevels] at h
  split at h
  · next d hlist =>
    split at h
    · next hd => exact .inl ⟨d.tree, children_of_childList hlist, by rw [d.rule?_eq, hd], h⟩
    · cases h
  · next o u hlist =>
    split at h
    · next hrules =>
      simp only [Option.bind_eq_bind, Option.bind_eq_some_iff, Option.pure_def,
        Option.some.injEq] at h
      obtain ⟨op, hop, x, hx, rfl⟩ := h
      exact .inr ⟨o.tree, u.tree, op, x, children_of_childList hlist, by rw [o.rule?_eq, hrules.1],
        by rw [u.rule?_eq, hrules.2], hop, hx, rfl⟩
    · cases h
  · cases h

/-! ### The loop against the recursion -/

/-- The expression is an operand with all signs before it applied, the outermost last. -/
def Surrounds (opRule operand : Rule) (read : Tree → Except Fault Expr) (t : Tree) (e : Expr) :
    Prop :=
  ∃ (os : List Tree) (ops : List UnaryOp) (d : Tree) (x : Expr), t.Signed opRule operand os d ∧
    os.map (fun o => UnaryOp.ofSymbol? o.string) = ops.map some ∧ read d = .ok x ∧
    e = ops.foldr .unary x

section Next

variable (hnext : ∀ d x, read d = .ok x ↔ next d = some x)
include hnext

/-- The loop and the recursion succeed together.  The loop keeps to the rule that it starts with; the
recursion compares each level with the one below it. -/
theorem ofSigned_ok_iff (hne : operand ≠ opRule) (r : Rule) (t : Tree) (e : Expr) :
    ofSigned t opRule (t.rule?.getD r) operand (fun c _ => read c) = .ok e ↔
      ofLevels opRule operand next t = some e := by
  constructor
  · intro h
    rcases ofSigned_ok h with ⟨d, hc, hd, hread⟩ | ⟨o, u, op, x, hc, ho, hu, hop, hx, rfl⟩
    · rw [ofLevels_one hc hd]
      exact (hnext d e).mp hread
    · -- the rule that the loop started with is the rule of this level
      have hrule : u.rule? = t.rule? := hu.trans (rule?_of_children hc r).symm
      rw [← hrule] at hx
      rw [ofLevels_two hc ho hrule hop, (ofSigned_ok_iff hne r u x).mp hx]
      rfl
  · intro h
    rcases ofLevels_some h with ⟨d, hc, hd, hread⟩ | ⟨o, u, op, x, hc, ho, hu, hop, hx, rfl⟩
    · rw [ofSigned_one read hc hd hne]
      exact (hnext d e).mpr hread
    · have hrule : u.rule? = some (t.rule?.getD r) := hu.trans (rule?_of_children hc r)
      rw [ofSigned_two read hc ho hrule hop, ← hu, (ofSigned_ok_iff hne r u x).mpr hx]
      rfl
termination_by sizeOf t
decreasing_by all_goals exact sizeOf_lt_of_mem_children (by simp [hc])

theorem surrounds_of_ofLevels (t : Tree) (e : Expr)
    (h : ofLevels opRule operand next t = some e) : Surrounds opRule operand read t e := by
  rcases ofLevels_some h with ⟨d, hc, hd, hread⟩ | ⟨o, u, op, x, hc, ho, hu, hop, hx, rfl⟩
  · exact ⟨[], [], d, e, .operand hc hd, rfl, (hnext d e).mpr hread, rfl⟩
  · obtain ⟨os, ops, d, y, hs, hops, hy, rfl⟩ := surrounds_of_ofLevels u x hx
    refine ⟨o :: os, op :: ops, d, y, .sign hc ho hu hs, ?_, hy, rfl⟩
    rw [List.map_cons, List.map_cons, hop, hops]
termination_by sizeOf t
decreasing_by exact sizeOf_lt_of_mem_children (by simp [hc])

theorem ofLevels_of_signed {os : List Tree} {d : Tree} (hs : t.Signed opRule operand os d)
    {ops : List UnaryOp} {x : Expr}
    (hops : os.map (fun o => UnaryOp.ofSymbol? o.string) = ops.map some) (hx : read d = .ok x) :
    ofLevels opRule operand next t = some (ops.foldr .unary x) := by
  induction hs generalizing ops with
  | operand hc hd =>
    obtain rfl := List.map_eq_nil_iff.mp hops.symm
    rw [ofLevels_one hc hd]
    exact (hnext _ x).mp hx
  | sign hc ho hu _ ih =>
    cases ops with
    | nil => cases hops
    | cons op ops =>
      obtain ⟨hop, hrest⟩ := List.cons.inj hops
      rw [ofLevels_two hc ho hu hop, ih hrest hx]
      rfl

theorem ofLevels_iff_surrounds :
    ofLevels opRule operand next t = some e ↔ Surrounds opRule operand read t e := by
  constructor
  · exact surrounds_of_ofLevels hnext t e
  · rintro ⟨os, ops, d, x, hs, hops, hx, rfl⟩
    exact ofLevels_of_signed hnext hs hops hx

end Next

/-! ### The two tiers -/

/-- What a `neg_expr` node gives by recursion. -/
def negByLevels : Tree → Option Expr := ofLevels .negOp .primary fun d => (ofPrimary d).toOption

/-- What a `not_expr` node gives by recursion. -/
def notByLevels : Tree → Option Expr := ofLevels .notOp .negExpr negByLevels

theorem ofPrimary_ok_iff (d : Tree) (x : Expr) :
    ofPrimary d = .ok x ↔ (ofPrimary d).toOption = some x := by
  cases ofPrimary d with
  | error f => simp [Except.toOption]
  | ok y => simp [Except.toOption]

theorem ofNeg_ok_iff (t : Tree) (e : Expr) : ofNeg t = .ok e ↔ negByLevels t = some e := by
  rw [ofNeg]
  exact ofSigned_ok_iff ofPrimary_ok_iff (by decide) .negExpr t e

theorem ofNot_ok_iff (t : Tree) (e : Expr) : ofNot t = .ok e ↔ notByLevels t = some e := by
  rw [ofNot]
  exact ofSigned_ok_iff ofNeg_ok_iff (by decide) .notExpr t e

/-- **The loop over signs is the recursion over levels.**  Whatever tree is given, what the loop makes
of it with an empty stack is what is made of a node of `!` or of `-`; this is an expression if and
only if the recursion gives the same one.  It has all signs of the tree around the operand, each
applied to what those further in give. -/
theorem signs_by_recursion (t : Tree) (e : Expr) :
    (ofNot t = signLoop .notOp (t.rule?.getD .notExpr) .negExpr ofNeg [] t ∧
      ofNeg t = signLoop .negOp (t.rule?.getD .negExpr) .primary ofPrimary [] t) ∧
    ((ofNot t = .ok e ↔ notByLevels t = some e) ∧ (ofNeg t = .ok e ↔ negByLevels t = some e)) ∧
    ((ofNot t = .ok e ↔ Surrounds .notOp .negExpr ofNeg t e) ∧
      (ofNeg t = .ok e ↔ Surrounds .negOp .primary ofPrimary t e)) := by
  refine ⟨⟨?_, ?_⟩, ⟨ofNot_ok_iff t e, ofNeg_ok_iff t e⟩, ?_, ?_⟩
  · rw [← ofSigned_eq_signLoop, ofNot]
  · rw [← ofSigned_eq_signLoop, ofNeg]
  · exact (ofNot_ok_iff t e).trans (ofLevels_iff_surrounds ofNeg_ok_iff)
  · exact (ofNeg_ok_iff t e).trans (ofLevels_iff_surrounds ofPrimary_ok_iff)

/-- A sign is what its node spells, whatever the rule of the node. -/
example :
    ofNot (.node .notExpr 0 3 [.node .notOp 0 1 [.token ['!']],
      .node .notExpr 1 3 [.node .notOp 1 2 [.token ['-']],
        .node .notExpr 2 3 [.node .negExpr 2 3 [.node .primary 2 3 [
          .node .identifier 2 3 [.token ['x']]]]]]]) =
      .ok (.unary .not (.unary .neg (.id "x"))) := by
  cbv

end Expr

end Mt22
