import Mt22.Proofs.Tree.Agree
import Mt22.Program.OfTree.Decl

/-!
# Programs of trees that look alike

What is made of a tree does not depend on its trivia and offsets: trees that look alike give the same
program, or faults that are reported alike (`Program.ofTree_alike`).
-/

namespace Mt22

open Mt22.Tree Mt22.Visit

variable {t u : Tree}

/-! ### Literals -/

theorem Tree.Alike.text_eq {r : Rule} (h : Alike t u) (hr : t.rule? = some r)
    (ht : r.isTextual = true) : t.text = u.text := h.text (by rw [hr]; exact ht)

namespace Literal

theorem integer_alike (h : Alike t u) (hr : t.rule? = some .intLit) :
    Agree Eq (integer t) (integer u) := by
  have htext := h.text_eq hr rfl
  rw [integer, integer, ← htext]
  cases Number.readSigned64? (withoutSeparators t.text) with
  | some n => exact .ok rfl
  | none =>
    refine .error ⟨?_, rfl, rfl⟩
    show "Integer literal " ++ t.string ++ _ = "Integer literal " ++ u.string ++ _
    rw [Tree.string, Tree.string, htext]

theorem dimension_alike (h : Alike t u) (hr : t.rule? = some .intLit) :
    Agree Eq (dimension t) (dimension u) := by
  have htext := h.text_eq hr rfl
  rw [dimension, dimension, ← htext]
  cases Number.readUnsigned64? (withoutSeparators t.text) with
  | some n => exact .ok rfl
  | none =>
    refine .error ⟨?_, rfl, rfl⟩
    show "Array dimension " ++ t.string ++ _ = "Array dimension " ++ u.string ++ _
    rw [Tree.string, Tree.string, htext]

theorem float_alike (h : Alike t u) (hr : t.rule? = some .floatLit) :
    Agree Eq (float t) (float u) := by
  have htext := h.text_eq hr rfl
  rw [float, float, ← htext]
  cases Number.Binary64.read? (withLeadingZero (withoutSeparators t.text)) with
  | some n => exact .ok rfl
  | none =>
    refine .error ⟨?_, rfl, rfl⟩
    show "Float literal " ++ t.string ++ _ = "Float literal " ++ u.string ++ _
    rw [Tree.string, Tree.string, htext]

theorem string_alike (h : Alike t u) : Agree Eq (string t) (string u) := by
  refine h.visit ((agrees_expect h _).bind ?_)
  rintro c d ⟨hcd, hr⟩
  exact agrees_pure (hcd.string (by rw [hr]; rfl))

theorem boolean_alike (h : Alike t u) : Agree Eq (boolean t) (boolean u) := by
  refine h.visit ((agrees_next h).bind ?_)
  intro c d hcd
  rw [← hcd.rule]
  split
  · exact agrees_pure rfl
  · exact agrees_pure rfl
  · exact agrees_violation h _

end Literal

theorem Expr.ofLiteral_alike (h : Alike t u) : Agree Eq (ofLiteral t) (ofLiteral u) := by
  refine h.visit ((agrees_next h).bind ?_)
  intro c d hcd
  have hrule := c.rule?_eq
  rw [← hcd.rule]
  split
  · next hr =>
    refine (agrees_lift (Literal.integer_alike hcd (hrule.trans (by rw [hr])))).bind ?_
    rintro x _ rfl
    exact agrees_pure rfl
  · next hr =>
    refine (agrees_lift (Literal.float_alike hcd (hrule.trans (by rw [hr])))).bind ?_
    rintro x _ rfl
    exact agrees_pure rfl
  · refine (agrees_lift (Literal.string_alike hcd)).bind ?_
    rintro x _ rfl
    exact agrees_pure rfl
  · refine (agrees_lift (Literal.boolean_alike hcd)).bind ?_
    rintro x _ rfl
    exact agrees_pure rfl
  · exact agrees_violation h _

/-! ### Types -/

theorem PrimTy.ofTree_alike (h : Alike t u) : Agree Eq (ofTree t) (ofTree u) := by
  refine h.visit ((agrees_next h).bind ?_)
  intro c d hcd
  rw [← hcd.rule]
  split
  · exact agrees_pure rfl
  · exact agrees_pure rfl
  · exact agrees_pure rfl
  · exact agrees_pure rfl
  · exact agrees_violation h _

namespace Ty

theorem ofArrayType_alike (h : Alike t u) : Agree Eq (ofArrayType t) (ofArrayType u) := by
  refine h.visitAll ((agrees_expect h _).bind ?_)
  rintro c d ⟨hcd, -⟩
  refine (agrees_lift (hcd.visit (agrees_many _))).bind ?_
  intro cs ds hcds
  refine (agrees_mapM hcds fun a b hab => agrees_lift (Literal.dimension_alike hab.1 ?_)).bind ?_
  · rw [a.rule?_eq, hab.2]
  · intro xs ys hxy
    obtain rfl : xs = ys := by rwa [List.forall₂_eq_eq_eq] at hxy
    dsimp only
    split
    · exact agrees_violation_bind h _
    · refine (agrees_expect h _).bind ?_
      rintro e f ⟨hef, -⟩
      refine (agrees_lift (PrimTy.ofTree_alike hef)).bind ?_
      rintro p _ rfl
      exact agrees_pure rfl

theorem ofVarType_alike (h : Alike t u) : Agree Eq (ofVarType t) (ofVarType u) := by
  refine h.visit ((agrees_next h).bind ?_)
  intro c d hcd
  rw [← hcd.rule]
  split
  · refine (agrees_lift (PrimTy.ofTree_alike hcd)).bind ?_
    rintro x _ rfl
    exact agrees_pure rfl
  · exact agrees_pure rfl
  · exact agrees_lift (ofArrayType_alike hcd)
  · exact agrees_violation h _

theorem ofFuncType_alike (h : Alike t u) : Agree Eq (ofFuncType t) (ofFuncType u) := by
  refine h.visit ((agrees_flag _).bind ?_)
  rintro b _ rfl
  split
  · exact agrees_pure rfl
  · refine (agrees_expect h _).bind ?_
    rintro c d ⟨hcd, -⟩
    refine (agrees_lift (ofVarType_alike hcd)).bind ?_
    rintro x _ rfl
    refine (agrees_finish h).bind ?_
    intro _ _ _
    exact agrees_pure rfl

end Ty

/-! ### Operators -/

theorem Visit.binaryOp_agrees {c : t.Child} {d : u.Child} (h : Alike t u) (hcd : c.Like d)
    (hr : c.rule.isTextual = true) : Agrees Eq (binaryOp c) (binaryOp d) := by
  rw [binaryOp, binaryOp, ← hcd.string hr]
  cases BinaryOp.ofSymbol? c.tree.string with
  | some op => exact agrees_pure rfl
  | none => exact agrees_violation h _

theorem Visit.unaryOp_agrees {c : t.Child} {d : u.Child} (h : Alike t u) (hcd : c.Like d)
    (hr : c.rule.isTextual = true) : Agrees Eq (unaryOp c) (unaryOp d) := by
  rw [unaryOp, unaryOp, ← hcd.string hr]
  cases UnaryOp.ofSymbol? c.tree.string with
  | some op => exact agrees_pure rfl
  | none => exact agrees_violation h _

section

variable {operand opRule : Rule} {read : t.Child → Except Fault Expr}
  {read' : u.Child → Except Fault Expr} (htu : Alike t u) (hop : opRule.isTextual = true)
  (hread : ∀ c d, Child.Like c d → Agree Eq (read c) (read' d))
include htu hop hread

theorem Visit.applyLeft_agrees (n : Nat) : ∀ (left : Expr) (cs : List t.Child) (ds : List u.Child),
    cs.length ≤ n → List.Forall₂ Child.Like cs ds →
    Agree (fun p q => p.1 = q.1 ∧ List.Forall₂ Child.Like p.2 q.2)
      (applyLeft operand opRule read left cs) (applyLeft operand opRule read' left ds) := by
  induction n with
  | zero =>
    intro left cs ds hn hs
    obtain rfl := List.length_eq_zero_iff.mp (Nat.le_zero.mp hn)
    cases hs
    exact .ok ⟨rfl, .nil⟩
  | succ n ih =>
    intro left cs ds hn hs
    cases hs with
    | nil => exact .ok ⟨rfl, .nil⟩
    | @cons o p cs ds ho hs =>
      rw [applyLeft, applyLeft, ← ho.rule]
      split
      · next hr =>
        refine ((binaryOp_agrees htu ho (by rw [hr]; exact hop)) _ _ hs).bind ?_
        rintro ⟨op, -⟩ ⟨_, -⟩ ⟨rfl, -⟩
        cases hs with
        | nil => exact .error (Fault.same_shape htu _)
        | @cons c d cs ds hcd hs =>
          dsimp only
          rw [← hcd.rule]
          split
          · refine (hread c d hcd).bind ?_
            rintro r _ rfl
            refine ih _ cs ds ?_ hs
            rw [List.length_cons, List.length_cons] at hn
            omega
          · exact .error (Fault.same_shape htu _)
      · exact .ok ⟨rfl, .cons ho hs⟩

theorem Expr.ofPair_alike : Agree Eq (ofPair t operand opRule read) (ofPair u operand opRule read') := by
  refine htu.visitAll ((agrees_expect htu _).bind ?_)
  rintro c d ⟨hcd, -⟩
  refine (agrees_lift (hread c d hcd)).bind ?_
  rintro l _ rfl
  refine (agrees_optional _).bind ?_
  intro a b hab
  cases hab with
  | none => exact agrees_pure rfl
  | @some o p ho =>
    refine (binaryOp_agrees htu ho.1 (by rw [ho.2]; exact hop)).bind ?_
    rintro op _ rfl
    refine (agrees_expect htu _).bind ?_
    rintro e f ⟨hef, -⟩
    refine (agrees_lift (hread e f hef)).bind ?_
    rintro r _ rfl
    exact agrees_pure rfl

theorem Expr.ofChain_alike :
    Agree Eq (ofChain t operand opRule read) (ofChain u operand opRule read') := by
  refine htu.visitAll ((agrees_expect htu _).bind ?_)
  rintro c d ⟨hcd, -⟩
  refine (agrees_lift (hread c d hcd)).bind ?_
  rintro l _ rfl
  exact fun cs ds hs => applyLeft_agrees htu hop hread cs.length l cs ds (Nat.le_refl _) hs

end

namespace Expr

theorem signStep_alike {opRule tier : Rule} (h : Alike t u) (hop : opRule.isTextual = true) :
    Agree (Option.Rel fun p q => p.1 = q.1 ∧ p.2.Like q.2) (signStep opRule tier t)
      (signStep opRule tier u) := by
  refine h.visit ((agrees_optional _).bind ?_)
  intro a b hab
  cases hab with
  | none => exact agrees_pure .none
  | @some o p ho =>
    refine (unaryOp_agrees h ho.1 (by rw [ho.2]; exact hop)).bind ?_
    rintro op _ rfl
    refine (agrees_expect h _).bind ?_
    rintro c d ⟨hcd, -⟩
    refine (agrees_finish h).bind ?_
    intro _ _ _
    exact agrees_pure (.some ⟨rfl, hcd⟩)

theorem signs_alike {opRule tier : Rule} (hop : opRule.isTextual = true) (t u : Tree)
    (h : Alike t u) : Agree (fun p q => p.1 = q.1 ∧ Alike p.2.val q.2.val) (signs opRule tier t)
      (signs opRule tier u) := by
  rw [signs, signs]
  refine (signStep_alike h hop).bind ?_
  intro a b hab
  cases hab with
  | none => exact .ok ⟨rfl, h⟩
  | @some p q hpq =>
    obtain ⟨op, c⟩ := p
    obtain ⟨_, d⟩ := q
    obtain ⟨rfl, hcd⟩ := hpq
    refine (signs_alike hop c.tree d.tree hcd).bind ?_
    rintro ⟨ops, e⟩ ⟨_, f⟩ ⟨rfl, hef⟩
    exact .ok ⟨rfl, hef⟩
termination_by sizeOf t
decreasing_by exact c.sizeOf_lt

theorem ofSigned_alike {opRule tier operand : Rule}
    {read : (c : Tree) → sizeOf c < sizeOf t → Except Fault Expr}
    {read' : (c : Tree) → sizeOf c < sizeOf u → Except Fault Expr} (h : Alike t u)
    (hop : opRule.isTextual = true)
    (hread : ∀ c d hc hd, Alike c d → Agree Eq (read c hc) (read' d hd)) :
    Agree Eq (ofSigned t opRule tier operand read) (ofSigned u opRule tier operand read') := by
  refine (signs_alike hop t u h).bind ?_
  rintro ⟨ops, e⟩ ⟨_, f⟩ ⟨rfl, hef⟩
  have hvisit : Agree Eq
      (e.val.visitAll do
        let c ← expect operand
        read c.tree (Nat.lt_of_lt_of_le c.sizeOf_lt e.property))
      (f.val.visitAll do
        let c ← expect operand
        read' c.tree (Nat.lt_of_lt_of_le c.sizeOf_lt f.property)) := by
    refine hef.visitAll ((agrees_expect hef _).bind ?_)
    rintro c d ⟨hcd, -⟩
    exact agrees_lift (hread c.tree d.tree _ _ hcd)
  refine hvisit.bind ?_
  rintro x _ rfl
  exact .ok rfl

/-- What the tiers of expressions make of two trees agrees. -/
structure Tiers (t u : Tree) : Prop where
  expression : Agree Eq (ofTree t) (ofTree u)
  relational : Agree Eq (ofRelational t) (ofRelational u)
  logical : Agree Eq (ofLogical t) (ofLogical u)
  additive : Agree Eq (ofAdditive t) (ofAdditive u)
  multiplicative : Agree Eq (ofMultiplicative t) (ofMultiplicative u)
  notExpr : Agree Eq (ofNot t) (ofNot u)
  negExpr : Agree Eq (ofNeg t) (ofNeg u)
  primary : Agree Eq (ofPrimary t) (ofPrimary u)
  array : Agree Eq (ofArray t) (ofArray u)
  arguments : Agree Eq (ofArguments t) (ofArguments u)
  cell : Agree Eq (ofCell t) (ofCell u)
  call : Agree Eq (ofCall t) (ofCall u)

section

variable (h : Alike t u) (ih : ∀ c d : Tree, sizeOf c < sizeOf t → Alike c d → Tiers c d)
include h ih

theorem ofPrimary_alike : Agree Eq (ofPrimary t) (ofPrimary u) := by
  rw [ofPrimary, ofPrimary]
  refine h.visitAll ((agrees_next h).bind ?_)
  intro c d hcd
  have hc := ih c.tree d.tree c.sizeOf_lt hcd
  rw [← hcd.rule]
  split
  · exact agrees_lift (ofLiteral_alike hcd)
  · refine (agrees_lift hc.cell).bind ?_
    rintro x _ rfl
    exact agrees_pure rfl
  · refine (agrees_lift hc.call).bind ?_
    rintro x _ rfl
    exact agrees_pure rfl
  · next hr => exact agrees_pure (congrArg Expr.id (hcd.string (by rw [hr]; rfl)))
  · exact agrees_lift hc.expression
  · refine (agrees_lift hc.array).bind ?_
    rintro x _ rfl
    exact agrees_pure rfl
  · exact agrees_violation h _

theorem ofArguments_alike : Agree Eq (ofArguments t) (ofArguments u) := by
  rw [ofArguments, ofArguments]
  refine h.visitAll ((agrees_many _).bind ?_)
  intro cs ds hcds
  refine Agrees.mono (agrees_mapM hcds ?_) (fun _ _ h => by rwa [List.forall₂_eq_eq_eq] at h)
  rintro c d ⟨hcd, -⟩
  exact agrees_lift (ih c.tree d.tree c.sizeOf_lt hcd).expression

theorem ofArray_alike : Agree Eq (ofArray t) (ofArray u) := by
  rw [ofArray, ofArray]
  refine h.visitAll ((agrees_optional _).bind ?_)
  intro a b hab
  cases hab with
  | none => exact agrees_pure rfl
  | @some c d hcd => exact agrees_lift (ih c.tree d.tree c.sizeOf_lt hcd.1).arguments

theorem ofCell_alike : Agree Eq (ofCell t) (ofCell u) := by
  rw [ofCell, ofCell]
  refine h.visitAll ((agrees_expect h _).bind ?_)
  rintro c d ⟨hcd, hr⟩
  refine (agrees_expect h _).bind ?_
  rintro e f ⟨hef, -⟩
  refine (agrees_lift (ih e.tree f.tree e.sizeOf_lt hef).arguments).bind ?_
  rintro xs _ rfl
  dsimp only
  split
  · exact agrees_violation_bind h _
  · exact agrees_pure (Prod.ext (hcd.string (by rw [hr]; rfl)) rfl)

theorem ofCall_alike : Agree Eq (ofCall t) (ofCall u) := by
  rw [ofCall, ofCall]
  refine h.visitAll ((agrees_expect h _).bind ?_)
  rintro c d ⟨hcd, hr⟩
  have hname : c.tree.string = d.tree.string := hcd.string (by rw [hr]; rfl)
  refine (agrees_optional _).bind ?_
  intro a b hab
  cases hab with
  | none => exact agrees_pure (Prod.ext hname rfl)
  | @some e f hef =>
    refine (agrees_lift (ih e.tree f.tree e.sizeOf_lt hef.1).arguments).bind ?_
    rintro xs _ rfl
    exact agrees_pure (Prod.ext hname rfl)

theorem tiers_step : Tiers t u where
  expression := by
    rw [ofTree, ofTree]
    exact ofPair_alike h rfl fun c d hcd => (ih c.tree d.tree c.sizeOf_lt hcd).relational
  relational := by
    rw [ofRelational, ofRelational]
    exact ofPair_alike h rfl fun c d hcd => (ih c.tree d.tree c.sizeOf_lt hcd).logical
  logical := by
    rw [ofLogical, ofLogical]
    exact ofChain_alike h rfl fun c d hcd => (ih c.tree d.tree c.sizeOf_lt hcd).additive
  additive := by
    rw [ofAdditive, ofAdditive]
    exact ofChain_alike h rfl fun c d hcd => (ih c.tree d.tree c.sizeOf_lt hcd).multiplicative
  multiplicative := by
    rw [ofMultiplicative, ofMultiplicative]
    exact ofChain_alike h rfl fun c d hcd => (ih c.tree d.tree c.sizeOf_lt hcd).notExpr
  notExpr := by
    rw [ofNot, ofNot, ← h.rule]
    exact ofSigned_alike h rfl fun c d hc _ hcd => (ih c d hc hcd).negExpr
  negExpr := by
    rw [ofNeg, ofNeg, ← h.rule]
    exact ofSigned_alike h rfl fun c d hc _ hcd => (ih c d hc hcd).primary
  primary := ofPrimary_alike h ih
  array := ofArray_alike h ih
  arguments := ofArguments_alike h ih
  cell := ofCell_alike h ih
  call := ofCall_alike h ih

end

/-- The expressions of trees that look alike agree. -/
theorem tiers (t u : Tree) (h : Alike t u) : Tiers t u :=
  tiers_step h fun c d _ hcd => tiers c d hcd
termination_by sizeOf t

end Expr

theorem Target.ofTree_alike (h : Alike t u) : Agree Eq (ofTree t) (ofTree u) := by
  refine h.visitAll ((agrees_next h).bind ?_)
  intro c d hcd
  rw [← hcd.rule]
  split
  · next hr => exact agrees_pure (congrArg Target.id (hcd.string (by rw [hr]; rfl)))
  · refine (agrees_lift (Expr.tiers _ _ hcd).cell).bind ?_
    rintro x _ rfl
    exact agrees_pure rfl
  · exact agrees_violation h _

/-! ### Statements -/

namespace VarDecl

theorem names_alike (h : Alike t u) : Agree Eq (names t) (names u) := by
  refine h.visit ((agrees_many _).bind ?_)
  intro cs ds hcds
  refine agrees_pure ?_
  induction hcds with
  | nil => rfl
  | @cons c d cs ds hcd _ ih =>
    rw [List.map_cons, List.map_cons, ih, hcd.1.string (by rw [hcd.2]; rfl)]

theorem values_alike (h : Alike t u) : Agree Eq (values t) (values u) := by
  refine h.visitAll ((agrees_many _).bind ?_)
  intro cs ds hcds
  refine Agrees.mono (agrees_mapM hcds ?_) (fun _ _ h => by rwa [List.forall₂_eq_eq_eq] at h)
  rintro c d ⟨hcd, -⟩
  exact agrees_lift (Expr.tiers _ _ hcd).expression

theorem ofGroup_alike (h : Alike t u) : Agree Eq (ofGroup t) (ofGroup u) := by
  refine h.visitAll ((agrees_expect h _).bind ?_)
  rintro c d ⟨hcd, -⟩
  refine (agrees_lift (names_alike hcd)).bind ?_
  rintro ns _ rfl
  refine (agrees_expect h _).bind ?_
  rintro e f ⟨hef, -⟩
  refine (agrees_lift (Ty.ofVarType_alike hef)).bind ?_
  rintro ty _ rfl
  refine (agrees_optional _).bind ?_
  intro a b hab
  cases hab with
  | none => exact agrees_pure rfl
  | @some i j hij =>
    refine (agrees_lift (values_alike hij.1)).bind ?_
    rintro xs _ rfl
    dsimp only
    split
    · exact fun _ _ _ => .error ⟨rfl, rfl, rfl⟩
    · exact agrees_pure rfl

end VarDecl

theorem Assign.ofTree_alike (h : Alike t u) : Agree Eq (ofTree t) (ofTree u) := by
  refine h.visitAll ((agrees_expect h _).bind ?_)
  rintro c d ⟨hcd, -⟩
  refine (agrees_lift (Target.ofTree_alike hcd)).bind ?_
  rintro x _ rfl
  refine (agrees_expect h _).bind ?_
  rintro e f ⟨hef, -⟩
  refine (agrees_lift (Expr.tiers _ _ hef).expression).bind ?_
  rintro y _ rfl
  exact agrees_pure rfl

namespace Stmt

theorem ofReturn_alike (h : Alike t u) : Agree Eq (ofReturn t) (ofReturn u) := by
  refine h.visitAll ((agrees_optional _).bind ?_)
  intro a b hab
  cases hab with
  | none => exact agrees_pure rfl
  | some hcd =>
    refine (agrees_lift (Expr.tiers _ _ hcd.1).expression).bind ?_
    rintro x _ rfl
    exact agrees_pure rfl

theorem ofCall_alike (h : Alike t u) : Agree Eq (ofCall t) (ofCall u) := by
  refine h.visitAll ((agrees_expect h _).bind ?_)
  rintro c d ⟨hcd, -⟩
  refine (agrees_lift (Expr.tiers _ _ hcd).call).bind ?_
  rintro x _ rfl
  exact agrees_pure rfl

theorem ofAssign_alike (h : Alike t u) : Agree Eq (ofAssign t) (ofAssign u) := by
  refine h.visitAll ((agrees_expect h _).bind ?_)
  rintro c d ⟨hcd, -⟩
  refine (agrees_lift (Assign.ofTree_alike hcd)).bind ?_
  rintro x _ rfl
  exact agrees_pure rfl

/-- What the forms of statements make of two trees agrees. -/
structure Forms (t u : Tree) : Prop where
  statement : Agree Eq (ofTree t) (ofTree u)
  ifStmt : Agree Eq (ofIf t) (ofIf u)
  forStmt : Agree Eq (ofFor t) (ofFor u)
  whileStmt : Agree Eq (ofWhile t) (ofWhile u)
  doWhileStmt : Agree Eq (ofDo t) (ofDo u)
  block : Agree Eq (ofBlock t) (ofBlock u)

section

variable (h : Alike t u) (ih : ∀ c d : Tree, sizeOf c < sizeOf t → Alike c d → Forms c d)
include h ih

theorem ofTree_alike : Agree Eq (ofTree t) (ofTree u) := by
  rw [ofTree, ofTree]
  refine h.visitAll ((agrees_next h).bind ?_)
  intro c d hcd
  have hc := ih c.tree d.tree c.sizeOf_lt hcd
  rw [← hcd.rule]
  split
  · exact agrees_lift hc.ifStmt
  · exact agrees_lift hc.forStmt
  · exact agrees_lift hc.whileStmt
  · exact agrees_lift hc.doWhileStmt
  · exact agrees_pure rfl
  · exact agrees_pure rfl
  · exact agrees_lift (ofReturn_alike hcd)
  · refine (agrees_lift hc.block).bind ?_
    rintro x _ rfl
    exact agrees_pure rfl
  · exact agrees_lift (ofCall_alike hcd)
  · exact agrees_lift (ofAssign_alike hcd)
  · exact agrees_violation h _

theorem ofIf_alike : Agree Eq (ofIf t) (ofIf u) := by
  rw [ofIf, ofIf]
  refine h.visitAll ((agrees_expect h _).bind ?_)
  rintro c d ⟨hcd, -⟩
  refine (agrees_lift (Expr.tiers _ _ hcd).expression).bind ?_
  rintro x _ rfl
  refine (agrees_expect h _).bind ?_
  rintro a b ⟨hab, -⟩
  refine (agrees_lift (ih a.tree b.tree a.sizeOf_lt hab).statement).bind ?_
  rintro y _ rfl
  refine (agrees_optional _).bind ?_
  intro e f hef
  cases hef with
  | none => exact agrees_pure rfl
  | @some e f hef =>
    refine (agrees_lift (ih e.tree f.tree e.sizeOf_lt hef.1).statement).bind ?_
    rintro z _ rfl
    exact agrees_pure rfl

theorem ofFor_alike : Agree Eq (ofFor t) (ofFor u) := by
  rw [ofFor, ofFor]
  refine h.visitAll ((agrees_expect h _).bind ?_)
  rintro c d ⟨hcd, -⟩
  refine (agrees_lift (Assign.ofTree_alike hcd)).bind ?_
  rintro x _ rfl
  refine (agrees_expect h _).bind ?_
  rintro e f ⟨hef, -⟩
  refine (agrees_lift (Expr.tiers _ _ hef).expression).bind ?_
  rintro y _ rfl
  refine (agrees_expect h _).bind ?_
  rintro i j ⟨hij, -⟩
  refine (agrees_lift (Expr.tiers _ _ hij).expression).bind ?_
  rintro z _ rfl
  refine (agrees_expect h _).bind ?_
  rintro a b ⟨hab, -⟩
  refine (agrees_lift (ih a.tree b.tree a.sizeOf_lt hab).statement).bind ?_
  rintro w _ rfl
  exact agrees_pure rfl

theorem ofWhile_alike : Agree Eq (ofWhile t) (ofWhile u) := by
  rw [ofWhile, ofWhile]
  refine h.visitAll ((agrees_expect h _).bind ?_)
  rintro c d ⟨hcd, -⟩
  refine (agrees_lift (Expr.tiers _ _ hcd).expression).bind ?_
  rintro x _ rfl
  refine (agrees_expect h _).bind ?_
  rintro a b ⟨hab, -⟩
  refine (agrees_lift (ih a.tree b.tree a.sizeOf_lt hab).statement).bind ?_
  rintro y _ rfl
  exact agrees_pure rfl

theorem ofDo_alike : Agree Eq (ofDo t) (ofDo u) := by
  rw [ofDo, ofDo]
  refine h.visitAll ((agrees_expect h _).bind ?_)
  rintro a b ⟨hab, -⟩
  refine (agrees_lift (ih a.tree b.tree a.sizeOf_lt hab).block).bind ?_
  rintro x _ rfl
  refine (agrees_expect h _).bind ?_
  rintro c d ⟨hcd, -⟩
  refine (agrees_lift (Expr.tiers _ _ hcd).expression).bind ?_
  rintro y _ rfl
  exact agrees_pure rfl

theorem ofBlock_alike : Agree Eq (ofBlock t) (ofBlock u) := by
  rw [ofBlock, ofBlock]
  refine Agree.bind (R := List.Forall₂ Eq) (.mapM h.childList ?_) ?_
  · intro c d hcd
    rw [← hcd.rule]
    split
    · refine (VarDecl.ofGroup_alike hcd).bind ?_
      rintro x _ rfl
      exact .ok rfl
    · refine (ih c.tree d.tree c.sizeOf_lt hcd).statement.bind ?_
      rintro x _ rfl
      exact .ok rfl
    · exact .error (Fault.same_shape h _)
  · intro xs ys hxy
    obtain rfl : xs = ys := by rwa [List.forall₂_eq_eq_eq] at hxy
    exact .ok rfl

end

/-- The statements of trees that look alike agree. -/
theorem forms (t u : Tree) (h : Alike t u) : Forms t u :=
  have ih : ∀ c d : Tree, sizeOf c < sizeOf t → Alike c d → Forms c d := fun c d _ hcd => forms c d hcd
  { statement := ofTree_alike h ih
    ifStmt := ofIf_alike h ih
    forStmt := ofFor_alike h ih
    whileStmt := ofWhile_alike h ih
    doWhileStmt := ofDo_alike h ih
    block := ofBlock_alike h ih }
termination_by sizeOf t

end Stmt

/-! ### Declarations -/

namespace Param

theorem ofTree_alike (h : Alike t u) : Agree Eq (ofTree t) (ofTree u) := by
  refine h.visitAll ((agrees_flag _).bind ?_)
  rintro x _ rfl
  refine (agrees_flag _).bind ?_
  rintro y _ rfl
  refine (agrees_expect h _).bind ?_
  rintro c d ⟨hcd, hr⟩
  have hname : c.tree.string = d.tree.string := hcd.string (by rw [hr]; rfl)
  refine (agrees_expect h _).bind ?_
  rintro e f ⟨hef, -⟩
  refine (agrees_lift (Ty.ofVarType_alike hef)).bind ?_
  rintro ty _ rfl
  exact agrees_pure (by rw [hname])

theorem listOfTree_alike (h : Alike t u) : Agree Eq (listOfTree t) (listOfTree u) := by
  refine h.visitAll ((agrees_many _).bind ?_)
  intro cs ds hcds
  refine Agrees.mono (agrees_mapM hcds ?_) (fun _ _ h => by rwa [List.forall₂_eq_eq_eq] at h)
  rintro c d ⟨hcd, -⟩
  exact agrees_lift (ofTree_alike hcd)

end Param

theorem FuncDecl.ofTree_alike (h : Alike t u) : Agree Eq (ofTree t) (ofTree u) := by
  refine h.visitAll ((agrees_expect h _).bind ?_)
  rintro c d ⟨hcd, hr⟩
  have hname : c.tree.string = d.tree.string := hcd.string (by rw [hr]; rfl)
  refine (agrees_expect h _).bind ?_
  rintro e f ⟨hef, -⟩
  refine (agrees_lift (Ty.ofFuncType_alike hef)).bind ?_
  rintro ty _ rfl
  -- what follows the parameters, whichever they are
  have hrest : ∀ ps : List Param, Agrees (t := t) (u := u) Eq
      (do let parent ← Visit.optional .identifier
          let body ← Stmt.ofBlock (← Visit.expect .block).tree
          pure (FuncDecl.mk c.tree.string ty ps (parent.map (·.tree.string)) body))
      (do let parent ← Visit.optional .identifier
          let body ← Stmt.ofBlock (← Visit.expect .block).tree
          pure (FuncDecl.mk d.tree.string ty ps (parent.map (·.tree.string)) body)) := by
    intro ps
    refine (agrees_optional _).bind ?_
    intro i j hij
    have hparent : i.map (·.tree.string) = j.map (·.tree.string) := by
      cases hij with
      | none => rfl
      | some hij => exact congrArg some (hij.1.string (by rw [hij.2]; rfl))
    refine (agrees_expect h _).bind ?_
    rintro k l ⟨hkl, -⟩
    refine (agrees_lift (Stmt.forms _ _ hkl).block).bind ?_
    rintro body _ rfl
    exact agrees_pure (by rw [hname, hparent])
  refine (agrees_optional _).bind ?_
  intro a b hab
  cases hab with
  | none => exact hrest []
  | some hij =>
    refine (agrees_lift (Param.listOfTree_alike hij.1)).bind ?_
    rintro ps _ rfl
    exact hrest ps

theorem Decl.ofTree_alike (h : Alike t u) : Agree Eq (ofTree t) (ofTree u) := by
  refine h.visitAll ((agrees_next h).bind ?_)
  intro c d hcd
  rw [← hcd.rule]
  split
  · refine (agrees_lift (FuncDecl.ofTree_alike hcd)).bind ?_
    rintro x _ rfl
    exact agrees_pure rfl
  · refine (agrees_lift (VarDecl.ofGroup_alike hcd)).bind ?_
    rintro x _ rfl
    exact agrees_pure rfl
  · exact agrees_violation h _

/-- **Trees that look alike give the same program**, or faults that are reported alike. -/
theorem Program.ofTree_alike (h : Alike t u) : Agree Eq (ofTree t) (ofTree u) := by
  refine h.visitAll ((agrees_many _).bind ?_)
  intro cs ds hcds
  refine Agrees.bind (R := List.Forall₂ Eq) (agrees_mapM hcds ?_) ?_
  · rintro c d ⟨hcd, -⟩
    exact agrees_lift (Decl.ofTree_alike hcd)
  · intro xs ys hxy
    obtain rfl : xs = ys := by rwa [List.forall₂_eq_eq_eq] at hxy
    refine (agrees_expect h _).bind ?_
    intro _ _ _
    exact agrees_pure rfl

end Mt22
