import Mt22.Proofs.Program.Special

/-!
# First faults of expressions and types

Whatever node is given, what is made of it is settled by its faults: something is made only where
nothing is at fault, and otherwise the first fault is reported (`Faults.Settles`).  Here this is shown
for literals, types and expressions, by following each visit with the rules of `Frame.Goes`.

Two loops are not visits from left to right alone.  A chain of operators is followed by the number of
children that are left (`Expr.goes_applyLeft`).  A level of signs looks at all its children before the
level below is read, so that it has rules of its own (`Expr.SignedBy`).
-/

namespace Mt22

open Mt22.Tree Mt22.Visit Mt22.Frame

variable {t : Tree}

/-! ### Literals -/

namespace Literal

theorem settles_string (ht : t.rule? = some .strLit) : t.Raises.Settles (string t) := by
  refine settles_headed ht (by decide) fun F hnodes hF => ?_
  refine (goes_expect (by decide)).bind fun c => goes_pure fun cs h => ?_
  exact h.none_head hnodes (free_of_special hF ht rfl 0) (by decide) (h.raises_none rfl)

theorem settles_boolean (ht : t.rule? = some .boolLit) : t.Raises.Settles (boolean t) := by
  refine settles_headed ht (by decide) fun F hnodes hF => ?_
  have hfree := free_of_special hF ht rfl 0
  have hasks : asks [Rule.boolLit.demand] [] [.kwTrue, .kwFalse] = true := by decide
  refine (goes_next hasks).bind fun c => ?_
  split
  · next hr => exact goes_atom hnodes hfree hr rfl (by decide)
  · next hr => exact goes_atom hnodes hfree hr rfl (by decide)
  · next h1 h2 => exact goes_unexpected hasks (by simp_all)

end Literal

namespace Expr

section Literal

variable {F : Frame t} {S : List Peg} {X : List Rule} {c : t.Child} {cs : List t.Child}

theorem children_of_at (h : F.At 0 S X (c :: cs)) : t.children = c.tree :: cs.map Child.tree :=
  h.left.symm

/-- A literal with a number that has a value, or with something else than a number. -/
theorem free_literal (ht : t.rule? = some .literal) (hF : F.special = t.Special)
    (h : F.At 0 S X (c :: cs)) (hint : c.rule = .intLit → ∃ n, Literal.integer c.tree = .ok n)
    (hfloat : c.rule = .floatLit → ∃ x, Literal.float c.tree = .ok x) : F.Free 0 := by
  intro p f hf
  rw [hF] at hf
  obtain ⟨n, ns, hc, hn⟩ := hf.of_literal ht
  obtain rfl : n = c.tree := by
    rw [children_of_at h] at hc
    exact (List.cons.inj hc).1.symm
  rcases hn with ⟨hr, herr⟩ | ⟨hr, herr⟩
  · obtain ⟨m, hm⟩ := hint (c.rule_eq hr)
    cases hm.symm.trans herr
  · obtain ⟨x, hx⟩ := hfloat (c.rule_eq hr)
    cases hx.symm.trans herr

end Literal

theorem settles_ofLiteral (ht : t.rule? = some .literal) : t.Raises.Settles (ofLiteral t) := by
  refine settles_headed ht (by decide) fun F hnodes hF => ?_
  have hasks : asks [Rule.literal.demand] [] [.intLit, .floatLit, .strLit, .boolLit] = true := by
    decide
  refine (goes_next hasks).bind fun c => ?_
  split
  · next hr =>
    refine .of_rule hr ((goes_check (by decide) rfl fun cs f h herr => ?_).bind fun n => ?_)
    · obtain ⟨hv, rfl⟩ := Literal.integer_error.mp herr
      exact ⟨[0], hF ▸ .inr (.integer ht (children_of_at h.1) h.rule? hv)⟩
    · refine goes_pure fun cs h => ?_
      have hfree := free_literal ht hF h.1.1 (fun _ => ⟨n, h.2⟩) (by simp [hr])
      exact h.1.none_head hnodes hfree (by decide) (h.1.raises_none rfl)
  · next hr =>
    refine .of_rule hr ((goes_check (by decide) rfl fun cs f h herr => ?_).bind fun x => ?_)
    · obtain ⟨hv, rfl⟩ := Literal.float_error.mp herr
      exact ⟨[0], hF ▸ .inr (.float ht (children_of_at h.1) h.rule? hv)⟩
    · refine goes_pure fun cs h => ?_
      have hfree := free_literal ht hF h.1.1 (by simp [hr]) (fun _ => ⟨x, h.2⟩)
      exact h.1.none_head hnodes hfree (by decide) (h.1.raises_none rfl)
  · next hr =>
    refine .of_rule hr ((goes_read (by decide) Literal.settles_string).bind fun x => ?_)
    refine goes_pure fun cs h => ?_
    have hfree := free_literal ht hF h.1.1 (by simp [hr]) (by simp [hr])
    exact h.1.none_head hnodes hfree (by decide) h.2.1
  · next hr =>
    refine .of_rule hr ((goes_read (by decide) Literal.settles_boolean).bind fun x => ?_)
    refine goes_pure fun cs h => ?_
    have hfree := free_literal ht hF h.1.1 (by simp [hr]) (by simp [hr])
    exact h.1.none_head hnodes hfree (by decide) h.2.1
  · exact goes_unexpected hasks (by simp_all)

end Expr

/-! ### Types -/

theorem PrimTy.settles_ofTree (ht : t.rule? = some .primType) : t.Raises.Settles (ofTree t) := by
  refine settles_headed ht (by decide) fun F hnodes hF => ?_
  have hfree := free_of_special hF ht rfl 0
  have hasks : asks [Rule.primType.demand] [] [.kwInteger, .kwFloat, .kwString, .kwBoolean] = true := by
    decide
  refine (goes_next hasks).bind fun c => ?_
  split
  · next hr => exact goes_atom hnodes hfree hr rfl (by decide)
  · next hr => exact goes_atom hnodes hfree hr rfl (by decide)
  · next hr => exact goes_atom hnodes hfree hr rfl (by decide)
  · next hr => exact goes_atom hnodes hfree hr rfl (by decide)
  · exact goes_unexpected hasks (by simp_all)

namespace Ty

/-- What can be wrong with dimensions. -/
theorem raises_dimensions {q : List Nat} {f : Fault} (ht : t.rule? = some .dimensions) :
    t.Raises q f ↔
      ∃ i n, q = [i, 0] ∧ t.examined[i]? = some n ∧ Literal.dimension n = .error f := by
  have hints : ∀ c ∈ t.examined, c.rule? = some .intLit := fun c => mem_examined_dimensions ht
  constructor
  · intro h
    rw [raises_eq] at h
    rcases h with h | ⟨i, c, p, hi, h, -⟩
    · rcases (owns_iff ht).mp h with ⟨k, hstrays, -⟩ | h
      · refine absurd hstrays (not_strays_of_admits ?_)
        exact Peg.admitsAny_singleton.mp (Peg.admitsAny_of_loop rfl
          ⟨_, List.mem_singleton_self _, rfl⟩ ⟨_, List.mem_singleton_self _, rfl⟩ hints)
      · exact h.of_dimensions ht
    · exact absurd h (none_of_isAtomic (hints c (List.mem_of_getElem? hi)) rfl p f)
  · rintro ⟨i, n, rfl, hn, herr⟩
    obtain ⟨hv, rfl⟩ := Literal.dimension_error.mp herr
    exact .self (.inr (.dimension ht hn hv))

theorem settles_dimensions (ht : t.rule? = some .dimensions) :
    t.Raises.Settles (t.examined.mapM Literal.dimension) := by
  refine ⟨fun ns hns q f h => ?_, fun f hf => ?_⟩
  · obtain ⟨i, n, -, hn, herr⟩ := (raises_dimensions ht).mp h
    obtain ⟨m, hm⟩ := exists_of_mapM hns (List.mem_of_getElem? hn)
    cases hm.symm.trans herr
  · obtain ⟨i, n, hn, herr, hbefore⟩ := exists_of_mapM_error hf
    refine ⟨[i, 0], (raises_dimensions ht).mpr ⟨i, n, rfl, hn, herr⟩, ?_⟩
    intro q' f' h' hlt
    obtain ⟨j, m, rfl, hm, herr'⟩ := (raises_dimensions ht).mp h'
    have hj : j < i := by simpa [List.cons_lt_cons_iff] using hlt
    obtain ⟨y, hy⟩ := hbefore j hj m hm
    cases hy.symm.trans herr'

/-- An array type has a dimension where its dimensions are read, and nothing else is wrong with it. -/
theorem free_arrayType {F : Frame t} {i : Nat} {ns : List Nat} {d : Tree} {cs : List Tree}
    (ht : t.rule? = some .arrayType) (hF : F.special = t.Special) (hc : t.children = d :: cs)
    (hns : d.examined.mapM Literal.dimension = .ok ns) (hne : ns ≠ []) : F.Free i := by
  intro p f hf
  rw [hF] at hf
  obtain ⟨-, d', cs', hc', hnone⟩ := hf.of_arrayType ht
  obtain ⟨rfl, -⟩ := List.cons.inj (hc.symm.trans hc')
  rw [hnone] at hns
  exact hne (Except.ok.inj hns).symm

theorem settles_ofArrayType (ht : t.rule? = some .arrayType) :
    t.Raises.Settles (ofArrayType t) := by
  refine settles_whole ht (by decide) (isSigned_of_rule ht (by decide)) fun F hwhole hF => ?_
  refine (goes_expect (by decide)).bind fun d => ?_
  obtain ⟨tokens, htokens⟩ : ∃ tokens, d.tree.visit (many .intLit) = .ok tokens := ⟨_, rfl⟩
  have hmap := visit_many_ok htokens
  have hexamined : d.tree.rule? = some .dimensions → tokens.map Child.tree = d.tree.examined := by
    intro hd
    rw [hmap, examined, hd]
  rw [htokens, lift_ok_bind]
  refine (goes_read_of (by decide) (mapM_run Literal.dimension tokens) fun hd => ?_).bind fun ns => ?_
  · rw [hexamined hd]
    exact settles_dimensions hd
  dsimp only
  split
  · next hempty =>
    refine goes_fail (fun _ => rfl) ?_
    rintro cs ⟨hpending, hnone, hns⟩
    have hnil : d.tree.examined = [] := by
      rw [← hexamined hpending.rule?, ← List.length_eq_zero_iff, ← length_of_mapM hns]
      simpa using hempty
    refine hpending.isFirst_special (p := [0]) (by decide) hnone ?_
    rw [hF]
    exact .inl (.dimensions ht hpending.1.left.symm hpending.rule? hnil)
  · next hempty =>
    have hne : ns ≠ [] := fun h => hempty (by rw [h]; rfl)
    refine .given fun _ hstart => ?_
    obtain ⟨hpending, -, hns⟩ := hstart
    rw [hexamined hpending.rule?] at hns
    have hfree : ∀ i, F.Free i := fun i => free_arrayType ht hF hpending.1.left.symm hns hne
    refine .pre ?_ fun cs h => h.1.step hwhole (hfree 0) (by decide) h.2.1
    refine (goes_expect (by decide)).bind fun e => ?_
    exact (goes_child hwhole (hfree 1) (by decide) PrimTy.settles_ofTree).bind fun _ =>
      goes_end (by decide)

theorem settles_ofVarType (ht : t.rule? = some .varType) : t.Raises.Settles (ofVarType t) := by
  refine settles_headed ht (by decide) fun F hnodes hF => ?_
  have hfree := free_of_special hF ht rfl 0
  have hasks : asks [Rule.varType.demand] [] [.primType, .kwAuto, .arrayType] = true := by decide
  refine (goes_next hasks).bind fun c => ?_
  split
  · next hr =>
    refine (goes_head hnodes hfree hr (by decide) PrimTy.settles_ofTree).bind fun _ => ?_
    exact goes_pure fun _ h => h
  · next hr => exact goes_atom hnodes hfree hr rfl (by decide)
  · next hr => exact goes_head hnodes hfree hr (by decide) settles_ofArrayType
  · exact goes_unexpected hasks (by simp_all)

theorem settles_ofFuncType (ht : t.rule? = some .funcType) : t.Raises.Settles (ofFuncType t) := by
  -- `void` is taken by the first child, any other type by all of them
  have hexamined : t.examined =
      if t.children.head?.bind rule? = some .kwVoid then t.children.take 1 else t.children := by
    rw [examined, ht]
  have hnext : t.examined[0]? = t.children[0]? := by
    rw [hexamined]
    split <;> simp
  refine settles_examined ht (by decide) (isSigned_of_rule ht (by decide)) hnext fun F hnodes hF => ?_
  have hfree : ∀ i, F.Free i := free_of_special hF ht rfl
  rw [hexamined] at hnodes
  refine goes_flag (fun c => ?_) ?_
  · refine goes_pure fun cs h => ?_
    rw [if_pos (h.1.rule_head.trans (congrArg some h.2))] at hnodes
    exact h.none_head hnodes (hfree 0) (by decide) (h.raises_none rfl)
  · refine .given fun cs₀ h₀ => ?_
    have hwhole : F.Whole := by
      rw [if_neg] at hnodes
      · exact hnodes
      · intro hvoid
        obtain ⟨c, hc, hr⟩ := Option.map_eq_some_iff.mp (h₀.rule_head.symm.trans hvoid)
        exact h₀.unlike c hc (by simp [hr])
    refine (goes_expect (by decide)).bind fun c => ?_
    refine (goes_last hwhole (hfree 0) (by decide) (by decide) settles_ofVarType).bind fun ty => ?_
    exact goes_finish.bind fun _ => goes_pure fun _ h => h

end Ty

/-! ### Expressions -/

namespace Expr

section Tiers

variable {k i : Nat} {F : Frame t} {S : List Peg} {X : List Rule} {r : Rule} {c : t.Child}
  {cs : List t.Child}

/-- What a tier of operators between operands asks for after its first operand. -/
def tierLeft (k : Nat) : List Peg := Peg.advance [(tierRule k).demand] (tierRule (k + 1))

/-- What it asks for after an operator. -/
def tierRight (k : Nat) : List Peg := Peg.advance (tierLeft k) (opRule k)

/-- A tier asks for an operand, and then it may have an operator with another operand. -/
structure TierAsks (k : Nat) : Prop where
  left : asks [(tierRule k).demand] [] [tierRule (k + 1)] = true
  goesLeft : goesOn [(tierRule k).demand] (tierRule (k + 1)) = true
  closes : closes (tierLeft k) [opRule k] = true
  goesOp : goesOn (tierLeft k) (opRule k) = true
  right : asks (tierRight k) [] [tierRule (k + 1)] = true
  goesRight : goesOn (tierRight k) (tierRule (k + 1)) = true

theorem tierAsks (hk : k < 5) : TierAsks k := by
  match k, hk with
  | 0, _ | 1, _ | 2, _ | 3, _ | 4, _ => constructor <;> decide

/-- The two loosest tiers end with the second operand. -/
theorem tier_once (hk : k < 2) :
    Frame.closes (Peg.advance (tierRight k) (tierRule (k + 1))) [] = true := by
  match k, hk with
  | 0, _ | 1, _ => decide

/-- The tighter ones go on as after the first. -/
theorem tier_again (h2 : 2 ≤ k) (h5 : k < 5) :
    Peg.advance (tierRight k) (tierRule (k + 1)) = tierLeft k := by
  match k, h2, h5 with
  | 2, _, _ | 3, _, _ | 4, _, _ => rfl

variable (hk : k < 5) (ht : t.rule? = some (tierRule k)) (hwhole : F.Whole)
  (hF : F.special = t.Special)
include hk ht hwhole hF

/-- Nothing else is wrong with an operand, nor with an operator that is known. -/
theorem free_tier (h : F.Pending i S X r c cs)
    (hop : r = opRule k → BinaryOp.ofSymbol? c.tree.string ≠ none) : F.Free i := by
  intro p f hf
  rw [hF] at hf
  obtain ⟨j, o, hq, ho, hor, hnone⟩ := hf.of_tier hk ht
  obtain ⟨rfl, -⟩ := List.cons.inj hq
  obtain rfl : c.tree = o := by
    have hhead := h.1.head_cons
    rw [hwhole] at hhead
    exact Option.some.inj (hhead.symm.trans ho)
  exact hop (Option.some.inj (h.rule?.symm.trans hor)) hnone

theorem goes_operand (hgo : goesOn S (tierRule (k + 1)) = true)
    (hread : ∀ c : t.Child, c.tree.rule? = some (tierRule (k + 1)) →
      c.tree.Raises.Settles (ofTier (k + 1) c.tree)) :
    F.Goes (F.Pending i S X (tierRule (k + 1)) c) (liftM (ofTier (k + 1) c.tree))
      fun _ => F.At (i + 1) (Peg.advance S (tierRule (k + 1))) [] := by
  refine (goes_read hgo (hread c)).post fun e cs h => ?_
  refine h.1.step hwhole (free_tier hk ht hwhole hF h.1 fun hr => ?_) hgo h.2.1
  have hall : ∀ k < 5, tierRule (k + 1) ≠ opRule k := by decide
  exact absurd hr (hall k hk)

theorem goes_operator (hgo : goesOn S (opRule k) = true) :
    F.Goes (F.Pending i S X (opRule k) c) (binaryOp c)
      fun _ => F.At (i + 1) (Peg.advance S (opRule k)) [] := by
  have hatom : (opRule k).isAtomic = true := by
    have hall : ∀ k < 5, (opRule k).isAtomic = true := by decide
    exact hall k hk
  rw [binaryOp]
  split
  · next op hop =>
    refine goes_pure fun cs h => h.step hwhole ?_ hgo (h.raises_none hatom)
    exact free_tier hk ht hwhole hF h fun _ => by simp [hop]
  · next hop =>
    intro cs h
    have hhead := h.1.head_cons
    rw [hwhole] at hhead
    refine .of_error (h.isFirst_special (p := [0]) hgo (h.raises_none hatom) ?_)
    rw [hF]
    exact .inr (.binary hk ht hhead h.rule? hop)

end Tiers

/-- The first operator of a chain, as steps of a visit. -/
theorem applyLeft_cons {operand op : Rule} {read : t.Child → Except Fault Expr} {left : Expr}
    {o : t.Child} {cs : List t.Child} (ho : o.rule = op) :
    applyLeft operand op read left (o :: cs) = (do
      let p ← binaryOp o
      let c ← expect operand
      let right ← (liftM (read c) : Visit t Expr)
      applyLeft operand op read (.binary p left right)) cs := by
  rw [applyLeft, if_pos ho, bind_run]
  cases hsymbol : BinaryOp.ofSymbol? o.tree.string with
  | none => simp [binaryOp, hsymbol]
  | some p =>
    simp only [binaryOp, hsymbol, pure_run, ok_bind, bind_run]
    cases cs with
    | nil => rfl
    | cons c cs =>
      rw [expect]
      dsimp only
      split
      · rw [ok_bind, lift_run]
        cases read c <;> rfl
      · rfl

theorem tier_frame {k : Nat} (ht : t.rule? = some (tierRule k)) (hk : k < 5) :
    ((tierRule k).isWhole = true ∧ (tierRule k).demand.isSyntax = true) ∧ t.isSigned = false := by
  have hall : ∀ k < 5, ((tierRule k).isWhole = true ∧ (tierRule k).demand.isSyntax = true) ∧
      tierRule k ≠ .notExpr ∧ tierRule k ≠ .negExpr := by decide
  exact ⟨(hall k hk).1, isSigned_of_rule ht (hall k hk).2⟩

section Tiers

variable {k : Nat} (ht : t.rule? = some (tierRule k))
  (hread : ∀ c : t.Child, c.tree.rule? = some (tierRule (k + 1)) →
    c.tree.Raises.Settles (ofTier (k + 1) c.tree))
include ht hread

theorem settles_ofPair (hk : k < 2) : t.Raises.Settles
    (ofPair t (tierRule (k + 1)) (opRule k) fun c => ofTier (k + 1) c.tree) := by
  have h5 : k < 5 := by omega
  have hasks := tierAsks h5
  obtain ⟨hr, hs⟩ := tier_frame ht h5
  refine settles_whole ht hr hs fun F hwhole hF => ?_
  refine (goes_expect hasks.left).bind fun c => ?_
  refine (goes_operand h5 ht hwhole hF hasks.goesLeft hread).bind fun x => ?_
  refine goes_optional (fun o => ?_) (goes_end hasks.closes)
  refine (goes_operator h5 ht hwhole hF hasks.goesOp).bind fun op => ?_
  refine (goes_expect hasks.right).bind fun d => ?_
  refine (goes_operand h5 ht hwhole hF hasks.goesRight hread).bind fun y => ?_
  exact goes_end (tier_once hk)

/-- Operators with their right operands.  What is left is the same after each of them. -/
theorem goes_applyLeft {F : Frame t} (h2 : 2 ≤ k) (h5 : k < 5) (hwhole : F.Whole)
    (hF : F.special = t.Special) (n : Nat) : ∀ {i : Nat} {left : Expr}, t.children.length ≤ i + n →
    F.Goes (F.At i (tierLeft k) []) (applyLeft (tierRule (k + 1)) (opRule k)
      (fun c : t.Child => ofTier (k + 1) c.tree) left) fun _ => F.Ended := by
  have hasks := tierAsks h5
  induction n with
  | zero =>
    intro i left hn cs h
    have hleft : cs.map Child.tree = [] := h.left.trans (List.drop_eq_nil_of_le hn)
    rw [List.map_eq_nil_iff.mp hleft, applyLeft]
    exact .of_ok ⟨_, _, _, (List.map_eq_nil_iff.mp hleft ▸ h).notIn (by simp), hasks.closes⟩
  | succ n ih =>
    intro i left hn cs h
    cases cs with
    | nil =>
      rw [applyLeft]
      exact .of_ok ⟨_, _, _, h.notIn (by simp), hasks.closes⟩
    | cons o cs =>
      by_cases ho : o.rule = opRule k
      · rw [applyLeft_cons ho]
        refine Goes.bind (R := fun _ => F.Ended) (goes_operator h5 ht hwhole hF hasks.goesOp)
          (fun op => ?_) cs ⟨h, ho⟩
        refine (goes_expect hasks.right).bind fun c => ?_
        refine (goes_operand h5 ht hwhole hF hasks.goesRight hread).bind fun y => ?_
        rw [tier_again h2 h5]
        exact ih (by omega)
      · rw [applyLeft, if_neg ho]
        exact .of_ok ⟨_, _, _, h.notIn (by simpa using ho), hasks.closes⟩

theorem settles_ofChain (h2 : 2 ≤ k) (h5 : k < 5) : t.Raises.Settles
    (ofChain t (tierRule (k + 1)) (opRule k) fun c => ofTier (k + 1) c.tree) := by
  have hasks := tierAsks h5
  obtain ⟨hr, hs⟩ := tier_frame ht h5
  refine settles_whole ht hr hs fun F hwhole hF => ?_
  refine (goes_expect hasks.left).bind fun c => ?_
  refine (goes_operand h5 ht hwhole hF hasks.goesLeft hread).bind fun x => ?_
  exact goes_applyLeft ht hread h2 h5 hwhole hF t.children.length (by omega)

end Tiers

section Signs

/-- A tier of operators before an operand asks for the operand, or for an operator and the tier
again. -/
structure SignAsks (s : UnaryOp) : Prop where
  isWhole : (tierRule s.tier).isWhole = true
  isSyntax : (tierRule s.tier).demand.isSyntax = true
  operand : asks [(tierRule s.tier).demand] [s.rule] [tierRule (s.tier + 1)] = true
  goesOperand : goesOn [(tierRule s.tier).demand] (tierRule (s.tier + 1)) = true
  closesOperand : closes (Peg.advance [(tierRule s.tier).demand] (tierRule (s.tier + 1))) [] = true
  goesOp : goesOn [(tierRule s.tier).demand] s.rule = true
  inner : asks (Peg.advance [(tierRule s.tier).demand] s.rule) [] [tierRule s.tier] = true
  goesInner : goesOn (Peg.advance [(tierRule s.tier).demand] s.rule) (tierRule s.tier) = true
  closesInner : closes (Peg.advance (Peg.advance [(tierRule s.tier).demand] s.rule)
    (tierRule s.tier)) [] = true

theorem signAsks (s : UnaryOp) : SignAsks s := by
  cases s <;> constructor <;> decide

variable {s : UnaryOp}

/-- A level without an operator. -/
theorem settles_unsigned (ht : t.rule? = some (tierRule s.tier))
    (hhead : t.children.head?.bind rule? ≠ some s.rule)
    (hread : ∀ c : t.Child, c.tree.rule? = some (tierRule (s.tier + 1)) →
      c.tree.Raises.Settles (ofTier (s.tier + 1) c.tree)) : t.Raises.Settles (t.visitAll do
        let c ← expect (tierRule (s.tier + 1))
        ofTier (s.tier + 1) c.tree) := by
  have hasks := signAsks s
  have hsigned : t.isSigned = false := by
    rw [isSigned, ht]
    cases s <;> split <;> simp_all [tierRule, UnaryOp.tier, UnaryOp.rule]
  refine settles_whole ht ⟨hasks.isWhole, hasks.isSyntax⟩ hsigned fun F hwhole hF => ?_
  have hfree : F.Free 0 := by
    intro p f hf
    rw [hF] at hf
    obtain ⟨o, cs, hc, ho, -⟩ := hf.of_sign ht
    rw [hc] at hhead
    exact hhead ho
  refine .pre ?_ fun cs h => h.notIn (r := s.rule) ?_
  · refine (goes_expect hasks.operand).bind fun c => ?_
    exact goes_last hwhole hfree hasks.goesOperand hasks.closesOperand (hread c)
  · intro c hc hr
    rw [h.rule_head, hc] at hhead
    exact hhead (congrArg some hr)

theorem signStep_none {op tier : Rule} (hhead : t.children.head?.bind rule? ≠ some op) :
    signStep op tier t = .ok none := by
  rw [← childList_map] at hhead
  rw [signStep, visit]
  cases h : t.childList with
  | nil => rfl
  | cons c cs =>
    have hc : c.rule ≠ op := by
      rw [h] at hhead
      rintro rfl
      exact hhead c.rule?_eq
    rw [bind_run, optional_cons, if_neg hc]
    rfl

/-- A level with an operator. -/
structure SignedBy (t : Tree) (s : UnaryOp) (o : t.Child) (cs : List t.Child) : Prop where
  tier : t.rule? = some (tierRule s.tier)
  childList : t.childList = o :: cs
  sign : o.rule = s.rule

namespace SignedBy

variable {o : t.Child} {cs : List t.Child} {op : UnaryOp} (h : SignedBy t s o cs)
include h

theorem children : t.children = o.tree :: cs.map Child.tree := children_of_childList h.childList

theorem sign? : o.tree.rule? = some s.rule := by rw [o.rule?_eq, h.sign]

theorem examined : t.examined = o.tree :: cs.map Child.tree := by
  rw [examined_of_isWhole h.tier (signAsks s).isWhole, h.children]

theorem turn (k : Nat) : t.turn k = min k 1 := by
  have hsigned : t.isSigned = true := by
    rw [isSigned, h.tier, h.children, List.head?_cons, Option.bind_some, h.sign?]
    cases s <;> rfl
  rw [Tree.turn, if_pos hsigned]

/-- The operator is where it must be. -/
theorem special_of_owns {p : List Nat} {f : Fault} (hf : t.Owns (0 :: p) f) :
    t.Special (0 :: p) f := by
  have hasks := signAsks s
  rcases (owns_iff h.tier).mp hf with ⟨k, hstrays, hq⟩ | hf
  · obtain rfl : k = 0 := by
      have hmin := (List.cons.inj hq).1
      rw [h.turn] at hmin
      omega
    let F := t.frame _ hasks.isSyntax
    have hfirst : F.nodes[0]? = some o.tree := by
      show t.examined[0]? = _
      rw [h.examined]
      rfl
    have hgo := Upto.zero.exists_rest (F := F) hfirst h.sign? (ne_nil_of_goesOn hasks.goesOp)
    exact absurd hstrays (Upto.zero.not_strays hgo)
  · exact hf

theorem none_of_head {c : Tree} (hc : t.examined[0]? = some c) : c.Raises.None := by
  rw [h.examined] at hc
  obtain rfl := Option.some.inj hc
  exact none_of_isAtomic h.sign? (by cases s <;> rfl)

theorem clearTo_zero : (Faults.gather t.Owns t.examined).ClearTo 0 := by
  refine Faults.clearTo_zero fun f hf => ?_
  rcases (owns_iff h.tier).mp hf with ⟨k, -, hq⟩ | hf
  · cases hq
  · obtain ⟨i, c, hq, -⟩ := hf.late
    cases hq

/-- An operator that is not known is the first fault. -/
theorem isFirst_unknown (hop : UnaryOp.ofSymbol? o.tree.string = none) :
    t.Raises.IsFirst (.shape t (.unknownUnary o.tree.string)) := by
  have hspecial : t.Special [0, 0] (.shape t (.unknownUnary o.tree.string)) :=
    .inr (.unary s h.tier h.children h.sign? hop)
  rw [raises_eq]
  refine h.clearTo_zero.isFirst (.inl ((owns_iff h.tier).mpr (.inr hspecial))) ?_ ?_
  · intro p f hf
    obtain ⟨i, c, hq, -⟩ := (h.special_of_owns hf).late
    obtain ⟨j, d, hq', -⟩ := hspecial.late
    rw [(List.cons.inj hq).2, (List.cons.inj hq').2]
    exact List.lt_irrefl _
  · exact fun c hc p f hf => absurd hf (h.none_of_head hc p f)

theorem signStep_unknown (hop : UnaryOp.ofSymbol? o.tree.string = none) :
    signStep s.rule (tierRule s.tier) t = .error (.shape t (.unknownUnary o.tree.string)) := by
  rw [signStep, visit, h.childList, bind_run, optional_cons, if_pos h.sign, ok_bind]
  dsimp only
  rw [bind_run, unaryOp, hop]
  rfl

variable (hop : UnaryOp.ofSymbol? o.tree.string = some op)
include hop

theorem not_special {q : List Nat} {f : Fault} : ¬ t.Special q f := by
  intro hf
  obtain ⟨o', cs', hc, -, hnone⟩ := hf.of_sign h.tier
  obtain ⟨rfl, -⟩ := List.cons.inj (h.children.symm.trans hc)
  cases hop.symm.trans hnone

theorem clearTo_one : (Faults.gather t.Owns t.examined).ClearTo 1 :=
  h.clearTo_zero.succ (fun _ _ hf => h.not_special hop (h.special_of_owns hf)) fun _ => h.none_of_head

/-- After an operator that is known, a child that is out of place is the first fault. -/
theorem isFirst_strays {k : Nat} {f : Fault} (hk : 1 ≤ k)
    (hstrays : t.Strays (tierRule s.tier).demand t.examined k f) : t.Raises.IsFirst f := by
  have hturn : t.turn k = 1 := by
    rw [h.turn]
    omega
  have howns : t.Owns [1] f := (owns_iff h.tier).mpr (.inl ⟨k, hstrays, by rw [hturn]⟩)
  rw [raises_eq]
  refine (h.clearTo_one hop).isFirst (.inl howns) ?_ ?_
  · exact fun _ _ _ => List.not_lt_nil _
  · exact fun _ _ _ _ _ => List.not_lt_nil _

theorem signStep_known : signStep s.rule (tierRule s.tier) t = ((do
    let inner ← expect (tierRule s.tier)
    finish
    return some (op, inner) : Visit t (Option (UnaryOp × t.Child))) cs).map (·.1) := by
  rw [signStep, visit, h.childList, bind_run, optional_cons, if_pos h.sign, ok_bind]
  dsimp only
  rw [bind_run, unaryOp, hop]
  rfl

/-- A level with nothing but an operator and the level below it. -/
theorem settles_inner {α : Type} {d : t.Child} {x : Except Fault α} (hcs : cs = [d])
    (hd : d.tree.rule? = some (tierRule s.tier)) (hx : d.tree.Raises.Settles x) :
    t.Raises.Settles x := by
  have hexamined : t.examined = [o.tree, d.tree] := by
    rw [h.examined, hcs, List.map_singleton]
  have hadmits : (tierRule s.tier).demand.Admits t.examined := by
    rw [hexamined, ← Peg.admitsAny_singleton, Peg.admitsAny_cons_iff h.sign?,
      Peg.admitsAny_cons_iff hd, Peg.admitsAny_nil_iff]
    exact bare_of_closes (signAsks s).closesInner
  refine ⟨fun a ha => ?_, fun f hf => ?_⟩
  · refine raises_none h.tier hadmits (fun _ _ => h.not_special hop) ?_
    rw [hexamined]
    refine List.forall_mem_cons.mpr ⟨h.none_of_head (by rw [hexamined]; rfl), ?_⟩
    exact List.forall_mem_singleton.mpr (hx.ok a ha)
  · obtain ⟨p, hp, hmin⟩ := hx.error f hf
    rw [raises_eq]
    refine (h.clearTo_one hop).isFirst (.inr ⟨1, d.tree, p, by rw [hexamined]; rfl, hp, rfl⟩) ?_ ?_
    · intro p' f' howns
      rcases (owns_iff h.tier).mp howns with ⟨k, hstrays, -⟩ | hspecial
      · exact absurd hstrays (not_strays_of_admits hadmits)
      · exact absurd hspecial (h.not_special hop)
    · intro c hc
      rw [hexamined] at hc
      obtain rfl := Option.some.inj hc
      exact hmin

/-- A child that cannot follow the operator, or none where one must. -/
theorem isFirst_second {v : Violation} (hcs : ∀ d ∈ cs.head?, d.rule ≠ tierRule s.tier)
    (hv : v.found? = some (cs.head?.map Child.rule)) : t.Raises.IsFirst (.shape t v) := by
  have hasks := signAsks s
  let F := t.frame _ hasks.isSyntax
  have hnodes : F.nodes = o.tree :: cs.map Child.tree := h.examined
  have hhead : F.nodes[1]? = cs.head?.map Child.tree := by
    rw [hnodes, List.getElem?_cons_succ, ← List.head?_eq_getElem?, List.head?_map]
  refine h.isFirst_strays hop (Nat.le_refl 1) (strays_of_stuck (F := F) (by simp [hnodes])
    (by rw [hnodes, List.take_succ_cons, List.take_zero, Peg.after_singleton h.sign?]; rfl)
    (ne_nil_of_goesOn hasks.goesOp) ?_ ?_)
  · rw [hv, hhead]
    cases cs with
    | nil => rfl
    | cons d ds => simp [d.rule?_eq]
  · intro rest hrest
    rw [hhead] at hrest
    cases cs with
    | nil => exact Peg.not_admitsAny_of_none (not_bare_of_asks hasks.inner) hrest
    | cons d ds =>
      refine Peg.not_admitsAny_of_some d.rule?_eq (advance_of_asks hasks.inner ?_ (by simp)) hrest
      simpa using hcs d rfl

/-- A child that follows the level below the operator. -/
theorem isFirst_third {d e : t.Child} {ds : List t.Child} (hcs : cs = d :: e :: ds)
    (hd : d.tree.rule? = some (tierRule s.tier)) :
    t.Raises.IsFirst (.shape t (.trailing e.rule)) := by
  have hasks := signAsks s
  let F := t.frame _ hasks.isSyntax
  have hnodes : F.nodes = o.tree :: d.tree :: e.tree :: ds.map Child.tree := by
    rw [show F.nodes = _ from h.examined, hcs, List.map_cons, List.map_cons]
  refine h.isFirst_strays hop (by decide : 1 ≤ 2) (strays_of_stuck (F := F) (by simp [hnodes])
    (S := Peg.advance (Peg.advance [(tierRule s.tier).demand] s.rule) (tierRule s.tier)) ?_
    (ne_nil_of_goesOn hasks.goesInner) ?_ ?_)
  · rw [hnodes]
    show Peg.after [F.demand] ([o.tree] ++ [d.tree]) = _
    rw [Peg.after_append, Peg.after_singleton h.sign?, Peg.after_singleton hd]
    rfl
  · rw [hnodes]
    show _ = some e.tree.rule?
    rw [e.rule?_eq]
    rfl
  · intro rest hrest
    rw [hnodes] at hrest
    exact Peg.not_admitsAny_of_some e.rule?_eq (advance_of_closes hasks.closesInner (by simp)) hrest

/-- A level with an operator, by the level below it. -/
theorem settles (hinner : ∀ c : t.Child, c.tree.rule? = some (tierRule s.tier) →
    c.tree.Raises.Settles (ofTier s.tier c.tree)) : t.Raises.Settles (ofTier s.tier t) := by
  rw [ofTier_eq_ofSigned s h.tier, ofSigned_eq, h.signStep_known hop]
  match cs, h with
  | [], h => exact .of_error (h.isFirst_second hop (by simp) rfl)
  | d :: ds, h =>
    by_cases hd : d.rule = tierRule s.tier
    · have hrule : d.tree.rule? = some (tierRule s.tier) := by rw [d.rule?_eq, hd]
      rw [bind_run, expect_cons hd]
      match ds, h with
      | [], h =>
        have hsettles := h.settles_inner hop rfl hrule (hinner d hrule)
        rw [ofTier_eq_ofSigned s hrule] at hsettles
        exact hsettles.bind fun e he => .of_ok he
      | e :: ds, h => exact .of_error (h.isFirst_third hop rfl hrule)
    · rw [bind_run, expect, if_neg hd]
      exact .of_error (h.isFirst_second hop (by simpa using hd) rfl)

end SignedBy

theorem settles_ofSigned (ht : t.rule? = some (tierRule s.tier))
    (hread : ∀ c : t.Child, c.tree.rule? = some (tierRule (s.tier + 1)) →
      c.tree.Raises.Settles (ofTier (s.tier + 1) c.tree))
    (hinner : ∀ c : t.Child, c.tree.rule? = some (tierRule s.tier) →
      c.tree.Raises.Settles (ofTier s.tier c.tree)) : t.Raises.Settles (ofTier s.tier t) := by
  by_cases hhead : t.children.head?.bind rule? = some s.rule
  · obtain ⟨o, cs, h⟩ : ∃ o cs, SignedBy t s o cs := by
      cases hcs : t.childList with
      | nil =>
        rw [children_of_childList hcs] at hhead
        cases hhead
      | cons o cs =>
        rw [children_of_childList hcs] at hhead
        exact ⟨o, cs, ht, hcs, o.rule_eq hhead⟩
    cases hop : UnaryOp.ofSymbol? o.tree.string with
    | none =>
      rw [ofTier_eq_ofSigned s ht, ofSigned_eq, h.signStep_unknown hop]
      exact .of_error (h.isFirst_unknown hop)
    | some op => exact h.settles hop hinner
  · rw [ofTier_eq_ofSigned s ht, ofSigned_eq, signStep_none hhead]
    exact settles_unsigned ht hhead hread

end Signs

/-- What is made of `t` at any place of an expression is settled by the faults of `t`. -/
structure Settled (t : Tree) : Prop where
  tier : ∀ {k : Nat}, t.rule? = some (tierRule k) → t.Raises.Settles (ofTier k t)
  arguments : t.rule? = some .arguments → t.Raises.Settles (ofArguments t)
  array : t.rule? = some .arrayLit → t.Raises.Settles (ofArray t)
  cell : t.rule? = some .arrayCell → t.Raises.Settles (ofCell t)
  call : t.rule? = some .funcCall → t.Raises.Settles (ofCall t)

theorem exists_of_drop_one {α : Type} {a : α} {as bs : List α} (h : as.drop 1 = a :: bs) :
    ∃ b, as = b :: a :: bs := by
  cases as with
  | nil => cases h
  | cons b as => exact ⟨b, congrArg (b :: ·) h⟩

section Step

variable (ih : ∀ u : Tree, sizeOf u < sizeOf t → Settled u)
include ih

theorem Settled.primary_step (ht : t.rule? = some .primary) : t.Raises.Settles (ofPrimary t) := by
  rw [ofPrimary]
  refine settles_plain ht (by decide) fun F hwhole hfree => ?_
  have hasks : asks [Rule.primary.demand] []
      [.literal, .arrayCell, .funcCall, .identifier, .expression, .arrayLit] = true := by decide
  refine (goes_next hasks).bind fun c => ?_
  have hc := ih c.tree c.sizeOf_lt
  split
  · next hr => exact .of_rule hr (goes_last hwhole (hfree 0) (by decide) (by decide) settles_ofLiteral)
  · next hr =>
    refine .of_rule hr ((goes_child hwhole (hfree 0) (by decide) hc.cell).bind fun _ => ?_)
    exact goes_end (by decide)
  · next hr =>
    refine .of_rule hr ((goes_child hwhole (hfree 0) (by decide) hc.call).bind fun _ => ?_)
    exact goes_end (by decide)
  · next hr => exact .of_rule hr (.take hwhole (hfree 0) rfl (by decide) (goes_end (by decide)))
  · next hr =>
    exact .of_rule hr (goes_last hwhole (hfree 0) (by decide) (by decide) (hc.tier (k := 0)))
  · next hr =>
    refine .of_rule hr ((goes_child hwhole (hfree 0) (by decide) hc.array).bind fun _ => ?_)
    exact goes_end (by decide)
  · exact goes_unexpected hasks (by simp_all)

theorem Settled.tier_step {k : Nat} (ht : t.rule? = some (tierRule k)) :
    t.Raises.Settles (ofTier k t) := by
  have hread : ∀ c : t.Child, ∀ {k}, c.tree.rule? = some (tierRule k) →
      c.tree.Raises.Settles (ofTier k c.tree) := fun c _ hc => (ih c.tree c.sizeOf_lt).tier hc
  by_cases h2 : k < 2
  · rw [ofTier_eq_ofPair h2]
    exact settles_ofPair ht (fun c => hread c) h2
  by_cases h5 : k < 5
  · rw [ofTier_eq_ofChain (Nat.le_of_not_lt h2) h5]
    exact settles_ofChain ht (fun c => hread c) (Nat.le_of_not_lt h2) h5
  · match k, h5 with
    | 5, _ => exact settles_ofSigned (s := .not) ht (fun c => hread c) fun c => hread c
    | 6, _ => exact settles_ofSigned (s := .neg) ht (fun c => hread c) fun c => hread c
    | n + 7, _ => exact Settled.primary_step ih ht

theorem Settled.arguments_step (ht : t.rule? = some .arguments) :
    t.Raises.Settles (ofArguments t) := by
  rw [ofArguments]
  refine settles_plain ht (by decide) fun F hwhole hfree => ?_
  refine goes_items hwhole hfree (by decide) rfl (by decide) fun c hc => ?_
  exact (ih c.tree c.sizeOf_lt).tier (k := 0) hc

theorem Settled.cell_step (ht : t.rule? = some .arrayCell) : t.Raises.Settles (ofCell t) := by
  rw [ofCell]
  refine settles_whole ht (by decide) (isSigned_of_rule ht (by decide)) fun F hwhole hF => ?_
  have hfree : F.Free 0 := by
    intro p f hf
    rw [hF] at hf
    cases (hf.of_arrayCell ht).1
  refine (goes_expect (by decide)).bind fun n => .take hwhole hfree rfl (by decide) ?_
  refine (goes_expect (by decide)).bind fun a => ?_
  refine (goes_read (by decide) (ih a.tree a.sizeOf_lt).arguments).bind fun es => ?_
  dsimp only
  split
  · next hempty =>
    refine goes_fail (fun _ => rfl) ?_
    rintro cs ⟨hpending, hnone, hes⟩
    obtain ⟨b, hb⟩ := exists_of_drop_one hpending.1.left.symm
    have hnil : a.tree.children = [] := by
      rw [← List.length_eq_zero_iff, ← length_of_mapM (ofArguments_ok hes).2]
      simpa using hempty
    refine hpending.isFirst_special (p := [0]) (by decide) hnone ?_
    rw [hF]
    exact .inl (.indices ht hb hpending.rule? hnil)
  · next hempty =>
    refine goes_pure fun cs hstart => ?_
    obtain ⟨hpending, hnone, hes⟩ := hstart
    refine ⟨_, _, _, hpending.step hwhole (fun p f hf => ?_) (by decide) hnone, by decide⟩
    rw [hF] at hf
    obtain ⟨-, b, a', cs', hb, hnil⟩ := hf.of_arrayCell ht
    obtain ⟨b', hb'⟩ := exists_of_drop_one hpending.1.left.symm
    obtain ⟨rfl, -⟩ := List.cons.inj (List.cons.inj (hb.symm.trans hb')).2
    have hlength := length_of_mapM (ofArguments_ok hes).2
    rw [hnil, List.length_nil] at hlength
    exact hempty (by simpa using hlength)

theorem Settled.step : Settled t where
  tier := Settled.tier_step ih
  arguments := Settled.arguments_step ih
  array ht := by
    rw [ofArray]
    refine settles_plain ht (by decide) fun F hwhole hfree => ?_
    refine goes_optional (fun a => ?_) (goes_end (by decide))
    exact goes_last hwhole (hfree 0) (by decide) (by decide) (ih a.tree a.sizeOf_lt).arguments
  cell := Settled.cell_step ih
  call ht := by
    rw [ofCall]
    refine settles_plain ht (by decide) fun F hwhole hfree => ?_
    refine (goes_expect (by decide)).bind fun n => .take hwhole (hfree 0) rfl (by decide) ?_
    refine goes_optional (fun a => ?_) (goes_end (by decide))
    refine (goes_child hwhole (hfree 1) (by decide) (ih a.tree a.sizeOf_lt).arguments).bind fun _ => ?_
    exact goes_end (by decide)

end Step

theorem settled (t : Tree) : Settled t :=
  Settled.step fun u _ => settled u
termination_by sizeOf t

theorem settles_ofTree (ht : t.rule? = some .expression) : t.Raises.Settles (ofTree t) :=
  (settled t).tier (k := 0) ht

end Expr

end Mt22
