import Mt22.Program.OfTree.Expr
import Mt22.Proofs.Tree.Visit

/-!
# What expressions are made of

For every function that makes a part of an expression, what it makes of a node whose children are
those that the grammar promises.  The children are given as a list, so that nothing here depends
on the text of a node or on the trivia in it.
-/

namespace Mt22

open Mt22.Tree

variable {t : Tree}

/-! ### Literals -/

theorem Literal.string_eq {b : Tree} (h : t.children = [b]) (hb : b.rule? = some .strBody) :
    Literal.string t = .ok b.string := by
  obtain ⟨c, hc, rfl⟩ := childList_one h
  simp [Literal.string, visit, hc, c.rule_eq hb]

theorem Literal.boolean_eq {v : Tree} {b : Bool} (h : t.children = [v])
    (hv : v.rule? = some (if b then .kwTrue else .kwFalse)) : Literal.boolean t = .ok b := by
  obtain ⟨c, hc, rfl⟩ := childList_one h
  cases b <;> simp [Literal.boolean, visit, hc, c.rule_eq hv]

/-- A literal is what its only child is. -/
theorem Expr.ofLiteral_eq {v : Tree} {r : Rule} :
    t.children = [v] → v.rule? = some r → r ∈ [.intLit, .floatLit, .strLit, .boolLit] →
      Expr.ofLiteral t = match r with
      | .intLit => .int <$> Literal.integer v
      | .floatLit => .float <$> Literal.float v
      | .strLit => .str <$> Literal.string v
      | .boolLit => .bool <$> Literal.boolean v
      | r => .error (.shape t (.unexpected .literal r)) := by
  intro h hv hr
  obtain ⟨c, hc, rfl⟩ := childList_one h
  simp only [Expr.ofLiteral, visit, hc, Visit.bind_run, Visit.next_cons, Visit.ok_bind,
    c.rule_eq hv]
  simp only [List.mem_cons, List.not_mem_nil, or_false] at hr
  rcases hr with rfl | rfl | rfl | rfl
  · cases Literal.integer c.tree <;> rfl
  · cases Literal.float c.tree <;> rfl
  · cases Literal.string c.tree <;> rfl
  · cases Literal.boolean c.tree <;> rfl

namespace Expr

/-! ### Tiers with an operator between operands -/

section Binary

variable {operand opRule : Rule} {read : Tree → Except Fault Expr}

theorem ofPair_one {l : Tree} (h : t.children = [l]) (hl : l.rule? = some operand) :
    ofPair t operand opRule (fun c => read c.tree) = read l := by
  obtain ⟨c, hc, rfl⟩ := childList_one h
  simp only [ofPair, visitAll, visit, hc, Visit.bind_run, Visit.expect_cons (c.rule_eq hl),
    Visit.ok_bind, Visit.lift_run]
  cases read c.tree <;> rfl

theorem ofPair_three {l o r : Tree} {op : BinaryOp} (h : t.children = [l, o, r])
    (hl : l.rule? = some operand) (ho : o.rule? = some opRule) (hr : r.rule? = some operand)
    (hop : BinaryOp.ofSymbol? o.string = some op) :
    ofPair t operand opRule (fun c => read c.tree) = (do
      let x ← read l
      let y ← read r
      return .binary op x y) := by
  obtain ⟨c, d, e, hc, rfl, rfl, rfl⟩ := childList_three h
  simp only [ofPair, visitAll, visit, hc, Visit.bind_run, Visit.expect_cons (c.rule_eq hl),
    Visit.ok_bind, Visit.lift_run]
  cases read c.tree with
  | error f => rfl
  | ok x =>
    simp only [Visit.ok_bind, Visit.optional_cons, d.rule_eq ho, if_true, Visit.bind_run,
      Visit.binaryOp, hop, Visit.pure_run, Visit.expect_cons (e.rule_eq hr), Visit.lift_run]
    cases read e.tree <;> rfl

/-- Operators and operands in turn, applied to the left. -/
theorem applyLeft_eq {pairs : List (Tree × Tree)} {ops : List BinaryOp} :
    ∀ {cs : List t.Child} (left : Expr), cs.map Child.tree = pairs.flatMap (fun p => [p.1, p.2]) →
      (∀ p ∈ pairs, p.1.rule? = some opRule ∧ p.2.rule? = some operand) →
      pairs.map (fun p => BinaryOp.ofSymbol? p.1.string) = ops.map some →
      Visit.applyLeft operand opRule (fun c => read c.tree) left cs = (do
        let xs ← (pairs.map Prod.snd).mapM read
        return ((ops.zip xs).foldl (fun e p => .binary p.1 e p.2) left, [])) := by
  induction pairs generalizing ops with
  | nil =>
    intro cs left hcs _ _
    rw [List.map_eq_nil_iff.mp hcs]
    simp [Visit.applyLeft]
  | cons p pairs ih =>
    intro cs left hcs hr hop
    obtain ⟨o, cs', rfl, ho, h1⟩ := cons_of_map_tree hcs
    obtain ⟨c, rest, rfl, hc, h2⟩ := cons_of_map_tree h1
    obtain ⟨hpo, hpc⟩ := hr p List.mem_cons_self
    cases ops with
    | nil => cases hop
    | cons op ops =>
      obtain ⟨hop1, hops⟩ := List.cons.inj hop
      have hsym : BinaryOp.ofSymbol? o.tree.string = some op := by rw [ho]; exact hop1
      rw [Visit.applyLeft, if_pos (o.rule_eq (by rw [ho]; exact hpo)), Visit.binaryOp, hsym]
      simp only [Visit.pure_run, Visit.ok_bind]
      rw [if_pos (c.rule_eq (by rw [hc]; exact hpc)), hc, List.map_cons, List.mapM_cons]
      cases read p.2 with
      | error f => rfl
      | ok x =>
        rw [Visit.ok_bind, ih _ h2 (fun q hq => hr q (List.mem_cons_of_mem p hq)) hops]
        cases (pairs.map Prod.snd).mapM read <;> rfl

/-- The children of a tier whose operators are applied to the left. -/
structure Chain (t : Tree) (operand opRule : Rule) (l : Tree) (pairs : List (Tree × Tree))
    (ops : List BinaryOp) : Prop where
  children : t.children = l :: pairs.flatMap fun p => [p.1, p.2]
  head : l.rule? = some operand
  rules : ∀ p ∈ pairs, p.1.rule? = some opRule ∧ p.2.rule? = some operand
  symbols : pairs.map (fun p => BinaryOp.ofSymbol? p.1.string) = ops.map some

theorem ofChain_eq {l : Tree} {pairs : List (Tree × Tree)} {ops : List BinaryOp}
    (h : Chain t operand opRule l pairs ops) :
    ofChain t operand opRule (fun c => read c.tree) = (do
      let x ← read l
      let xs ← (pairs.map Prod.snd).mapM read
      return (ops.zip xs).foldl (fun e p => .binary p.1 e p.2) x) := by
  obtain ⟨c, cs, hc, rfl, hcs⟩ := childList_cons h.children
  simp only [ofChain, visitAll, visit, hc, Visit.bind_run, Visit.expect_cons (c.rule_eq h.head),
    Visit.ok_bind, Visit.lift_run]
  cases read c.tree with
  | error f => rfl
  | ok x =>
    simp only [Visit.ok_bind, applyLeft_eq x hcs h.rules h.symbols]
    cases (pairs.map Prod.snd).mapM read <;> rfl

theorem ofChain_one {l : Tree} (h : t.children = [l]) (hl : l.rule? = some operand) :
    ofChain t operand opRule (fun c => read c.tree) = read l := by
  have hc : Chain t operand opRule l [] [] := ⟨h, hl, by simp, rfl⟩
  rw [ofChain_eq hc]
  cases read l <;> rfl

/-- One more operator with its operand is applied to what was made so far. -/
theorem ofChain_snoc {u l o x : Tree} {pairs : List (Tree × Tree)} {ops : List BinaryOp}
    {op : BinaryOp} {e e' : Expr} (h : Chain t operand opRule l pairs ops)
    (hu : u.children = t.children ++ [o, x]) (ho : o.rule? = some opRule)
    (hx : x.rule? = some operand) (hop : BinaryOp.ofSymbol? o.string = some op)
    (he : ofChain t operand opRule (fun c => read c.tree) = .ok e) (he' : read x = .ok e') :
    ofChain u operand opRule (fun c => read c.tree) = .ok (.binary op e e') := by
  have hchain : Chain u operand opRule l (pairs ++ [(o, x)]) (ops ++ [op]) := by
    refine ⟨by rw [hu, h.children]; simp, h.head, fun p hp => ?_, ?_⟩
    · rcases List.mem_append.mp hp with hp | hp
      · exact h.rules p hp
      · rw [List.mem_singleton.mp hp]
        exact ⟨ho, hx⟩
    · rw [List.map_append, List.map_append, h.symbols, List.map_singleton, hop]
      rfl
  rw [ofChain_eq h] at he
  rw [ofChain_eq hchain]
  cases hl : read l with
  | error f => rw [hl] at he; cases he
  | ok y =>
    cases hm : (pairs.map Prod.snd).mapM read with
    | error f => rw [hl, hm] at he; cases he
    | ok ys =>
      have hlen : ops.length = ys.length := by
        have := congrArg List.length h.symbols
        rw [List.length_map, List.length_map] at this
        rw [Visit.length_of_mapM hm, List.length_map, this]
      rw [hl, hm] at he
      have he : (ops.zip ys).foldl (fun e p => .binary p.1 e p.2) y = e := Except.ok.inj he
      rw [List.map_append, List.mapM_append, hm]
      simp only [List.map_singleton, List.mapM_cons, List.mapM_nil, he', Visit.ok_bind,
        Visit.pure_eq_ok, List.zip_append hlen, List.foldl_append, he]
      rfl

end Binary

/-! ### Tiers with an operator before an operand -/

section Unary

variable {opRule tier operand : Rule}

theorem signStep_two {o d : Tree} {op : UnaryOp} (h : t.children = [o, d])
    (ho : o.rule? = some opRule) (hd : d.rule? = some tier)
    (hop : UnaryOp.ofSymbol? o.string = some op) :
    ∃ c : t.Child, c.tree = d ∧ signStep opRule tier t = .ok (some (op, c)) := by
  obtain ⟨c, e, hc, rfl, rfl⟩ := childList_two h
  refine ⟨e, rfl, ?_⟩
  simp only [signStep, visit, hc, Visit.bind_run, Visit.optional_cons, c.rule_eq ho, if_true,
    Visit.ok_bind, Visit.unaryOp, hop, Visit.pure_run, Visit.expect_cons (e.rule_eq hd),
    Visit.finish_nil, Visit.map_ok]

theorem signStep_one {d : Tree} {r : Rule} (h : t.children = [d]) (hd : d.rule? = some r)
    (hr : r ≠ opRule) : signStep opRule tier t = .ok none := by
  obtain ⟨c, hc, rfl⟩ := childList_one h
  simp [signStep, visit, hc, Visit.optional_cons, c.rule_eq hd, hr]

/-- What a level of a tier gives, by what the level below it gives. -/
theorem ofSigned_eq (read : Tree → Except Fault Expr) :
    ofSigned t opRule tier operand (fun c _ => read c) = (do
      match ← signStep opRule tier t with
      | none => t.visitAll do
        let c ← Visit.expect operand
        read c.tree
      | some (op, inner) =>
        .unary op <$> ofSigned inner.tree opRule tier operand fun c _ => read c) := by
  rw [ofSigned, signs]
  cases signStep opRule tier t with
  | error f => rfl
  | ok s =>
    cases s with
    | none =>
      simp only [Visit.ok_bind, Visit.pure_eq_ok]
      cases t.visitAll do
        let c ← Visit.expect operand
        (liftM (read c.tree) : Visit t Expr) with
      | error f => rfl
      | ok e => rfl
    | some p =>
      simp only [Visit.ok_bind, ofSigned]
      cases signs opRule tier p.2.tree with
      | error f => rfl
      | ok q =>
        simp only [Visit.ok_bind, Visit.pure_eq_ok]
        cases q.2.val.visitAll do
          let c ← Visit.expect operand
          (liftM (read c.tree) : Visit _ Expr) with
        | error f => rfl
        | ok e => rfl

theorem ofSigned_one {d : Tree} (read : Tree → Except Fault Expr) (h : t.children = [d])
    (hd : d.rule? = some operand) (hr : operand ≠ opRule) :
    ofSigned t opRule tier operand (fun c _ => read c) = read d := by
  obtain ⟨c, hc, rfl⟩ := childList_one h
  rw [ofSigned_eq, signStep_one h hd hr]
  simp only [Visit.ok_bind, visitAll, visit, hc, Visit.bind_run, Visit.expect_cons (c.rule_eq hd),
    Visit.lift_run]
  cases read c.tree <;> rfl

theorem ofSigned_two {o d : Tree} {op : UnaryOp} (read : Tree → Except Fault Expr)
    (h : t.children = [o, d]) (ho : o.rule? = some opRule) (hd : d.rule? = some tier)
    (hop : UnaryOp.ofSymbol? o.string = some op) :
    ofSigned t opRule tier operand (fun c _ => read c) =
      .unary op <$> ofSigned d opRule tier operand (fun c _ => read c) := by
  obtain ⟨c, rfl, hs⟩ := signStep_two h ho hd hop
  rw [ofSigned_eq, hs]
  rfl

end Unary

/-! ### The functions of the tiers -/

theorem ofTree_one {l : Tree} (h : t.children = [l]) (hl : l.rule? = some .relational) :
    ofTree t = ofRelational l := by
  rw [ofTree, ofPair_one h hl]

theorem ofTree_three {l o r : Tree} {op : BinaryOp} (h : t.children = [l, o, r])
    (hl : l.rule? = some .relational) (ho : o.rule? = some .concatOp)
    (hr : r.rule? = some .relational) (hop : BinaryOp.ofSymbol? o.string = some op) :
    ofTree t = (do
      let x ← ofRelational l
      let y ← ofRelational r
      return .binary op x y) := by
  rw [ofTree, ofPair_three h hl ho hr hop]

theorem ofRelational_one {l : Tree} (h : t.children = [l]) (hl : l.rule? = some .logical) :
    ofRelational t = ofLogical l := by
  rw [ofRelational, ofPair_one h hl]

theorem ofRelational_three {l o r : Tree} {op : BinaryOp} (h : t.children = [l, o, r])
    (hl : l.rule? = some .logical) (ho : o.rule? = some .relOp)
    (hr : r.rule? = some .logical) (hop : BinaryOp.ofSymbol? o.string = some op) :
    ofRelational t = (do
      let x ← ofLogical l
      let y ← ofLogical r
      return .binary op x y) := by
  rw [ofRelational, ofPair_three h hl ho hr hop]

theorem ofLogical_one {l : Tree} (h : t.children = [l]) (hl : l.rule? = some .additive) :
    ofLogical t = ofAdditive l := by
  rw [ofLogical, ofChain_one h hl]

theorem ofAdditive_one {l : Tree} (h : t.children = [l]) (hl : l.rule? = some .multiplicative) :
    ofAdditive t = ofMultiplicative l := by
  rw [ofAdditive, ofChain_one h hl]

theorem ofMultiplicative_one {l : Tree} (h : t.children = [l]) (hl : l.rule? = some .notExpr) :
    ofMultiplicative t = ofNot l := by
  rw [ofMultiplicative, ofChain_one h hl]

theorem ofNot_one {d : Tree} (h : t.children = [d]) (hd : d.rule? = some .negExpr) :
    ofNot t = ofNeg d := by
  rw [ofNot, ofSigned_one ofNeg h hd (by decide)]

theorem ofNot_two {o d : Tree} {op : UnaryOp} (ht : t.rule? = some .notExpr)
    (h : t.children = [o, d]) (ho : o.rule? = some .notOp) (hd : d.rule? = some .notExpr)
    (hop : UnaryOp.ofSymbol? o.string = some op) : ofNot t = .unary op <$> ofNot d := by
  rw [ofNot, ht, Option.getD_some, ofSigned_two ofNeg h ho hd hop, ofNot, hd, Option.getD_some]

theorem ofNeg_one {d : Tree} (h : t.children = [d]) (hd : d.rule? = some .primary) :
    ofNeg t = ofPrimary d := by
  rw [ofNeg, ofSigned_one ofPrimary h hd (by decide)]

theorem ofNeg_two {o d : Tree} {op : UnaryOp} (ht : t.rule? = some .negExpr)
    (h : t.children = [o, d]) (ho : o.rule? = some .negOp) (hd : d.rule? = some .negExpr)
    (hop : UnaryOp.ofSymbol? o.string = some op) : ofNeg t = .unary op <$> ofNeg d := by
  rw [ofNeg, ht, Option.getD_some, ofSigned_two ofPrimary h ho hd hop, ofNeg, hd, Option.getD_some]

/-- A primary is what its only child is. -/
theorem ofPrimary_eq {p : Tree} {r : Rule} :
    t.children = [p] → p.rule? = some r → r ∈ [.literal, .arrayCell, .funcCall, .identifier, .expression, .arrayLit] →
      ofPrimary t = match r with
      | .literal => ofLiteral p
      | .arrayCell => (fun c => .cell c.1 c.2) <$> ofCell p
      | .funcCall => (fun c => .call c.1 c.2) <$> ofCall p
      | .identifier => .ok (.id p.string)
      | .expression => ofTree p
      | .arrayLit => .array <$> ofArray p
      | r => .error (.shape t (.unexpected .primary r)) := by
  intro h hp hr
  obtain ⟨c, hc, rfl⟩ := childList_one h
  rw [ofPrimary]
  simp only [visitAll, visit, hc, Visit.bind_run, Visit.next_cons, Visit.ok_bind, c.rule_eq hp]
  simp only [List.mem_cons, List.not_mem_nil, or_false] at hr
  rcases hr with rfl | rfl | rfl | rfl | rfl | rfl
  · cases ofLiteral c.tree <;> rfl
  · cases ofCell c.tree <;> rfl
  · cases ofCall c.tree <;> rfl
  · rfl
  · cases ofTree c.tree <;> rfl
  · cases ofArray c.tree <;> rfl

theorem ofArguments_eq (h : ∀ c ∈ t.children, c.rule? = some .expression) :
    ofArguments t = t.children.mapM ofTree := by
  rw [ofArguments]
  simp only [visitAll, visit, Visit.bind_run, Visit.many_all (childList_rule h), Visit.ok_bind, Visit.mapM_run,
    childList_map]
  cases t.children.mapM ofTree <;> rfl

/-- The arguments of a node that may have none. -/
def argumentsOf : Option Tree → Except Fault (List Expr)
  | none => .ok []
  | some a => ofArguments a

theorem ofArray_eq {a : Option Tree} (h : t.children = a.toList)
    (ha : ∀ x ∈ a, x.rule? = some .arguments) : ofArray t = argumentsOf a := by
  rw [ofArray]
  cases a with
  | none => simp [visitAll, visit, childList_nil h, argumentsOf]
  | some a =>
    obtain ⟨c, hc, rfl⟩ := childList_one h
    simp only [visitAll, visit, hc, Visit.bind_run, Visit.optional_cons,
      c.rule_eq (ha _ rfl), if_true, Visit.ok_bind, Visit.lift_run, argumentsOf]
    cases ofArguments c.tree <;> rfl

theorem ofCall_eq {n : Tree} {a : Option Tree} (h : t.children = n :: a.toList)
    (hn : n.rule? = some .identifier) (ha : ∀ x ∈ a, x.rule? = some .arguments) :
    ofCall t = (fun es => (n.string, es)) <$> argumentsOf a := by
  rw [ofCall]
  cases a with
  | none =>
    obtain ⟨c, hc, rfl⟩ := childList_one h
    simp [visitAll, visit, hc, c.rule_eq hn, argumentsOf]
  | some a =>
    obtain ⟨c, d, hc, rfl, rfl⟩ := childList_two h
    simp only [visitAll, visit, hc, Visit.bind_run, Visit.expect_cons (c.rule_eq hn),
      Visit.optional_cons, d.rule_eq (ha _ rfl), if_true, Visit.ok_bind, Visit.lift_run,
      argumentsOf]
    cases ofArguments d.tree <;> rfl

theorem ofCell_eq {n a : Tree} (h : t.children = [n, a]) (hn : n.rule? = some .identifier)
    (ha : a.rule? = some .arguments) :
    ofCell t = (do
      let es ← ofArguments a
      if es.isEmpty then .error (.shape t .noIndices) else return (n.string, es)) := by
  obtain ⟨c, d, hc, rfl, rfl⟩ := childList_two h
  rw [ofCell]
  simp only [visitAll, visit, hc, Visit.bind_run, Visit.expect_cons (c.rule_eq hn),
    Visit.expect_cons (d.rule_eq ha), Visit.ok_bind, Visit.lift_run]
  cases ofArguments d.tree with
  | error f => rfl
  | ok es => cases es <;> rfl

end Expr

/-- A target is what its only child is. -/
theorem Target.ofTree_eq {l : Tree} {r : Rule} :
    t.children = [l] → l.rule? = some r → r ∈ [.identifier, .arrayCell] →
      Target.ofTree t = match r with
      | .identifier => .ok (.id l.string)
      | .arrayCell => (fun c => .cell c.1 c.2) <$> Expr.ofCell l
      | r => .error (.shape t (.unexpected .target r)) := by
  intro h hl hr
  obtain ⟨c, hc, rfl⟩ := childList_one h
  simp only [Target.ofTree, visitAll, visit, hc, Visit.bind_run, Visit.next_cons, Visit.ok_bind,
    c.rule_eq hl]
  simp only [List.mem_cons, List.not_mem_nil, or_false] at hr
  rcases hr with rfl | rfl
  · rfl
  · cases Expr.ofCell c.tree <;> rfl

end Mt22
