import Mt22.Proofs.Program.Draw
import Mt22.Proofs.Tree.Success

/-!
# What expressions were made of

`Expr.Made t es` says, without any order of evaluation, that the expressions `es` were made of the
node `t`: one rule for each form that a node of an expression can have.  Nothing is assumed of the
tree, which may be drawn by hand; where an expression was made, the node has such a form
(`Expr.made_of_ofTree` and the lemmas after it).  What holds of all expressions that are made, or of
all trees that expressions are made of, is then shown by induction on `Expr.Made`.
-/

namespace Mt22

open Mt22.Tree Mt22.Visit

variable {t : Tree}

theorem Tree.children_of_childList {cs : List t.Child} (h : t.childList = cs) :
    t.children = cs.map Child.tree := by
  rw [← h, childList_map]

theorem Tree.sizeOf_lt_of_mem_children {u : Tree} (h : u ∈ t.children) : sizeOf u < sizeOf t :=
  sizeOf_lt_of_mem_parts (List.mem_of_mem_filter h)

/-! ### Literals -/

theorem Literal.string_ok {s : String} (h : Literal.string t = .ok s) :
    ∃ b rest, t.children = b :: rest ∧ b.rule? = some .strBody ∧ s = b.string := by
  rw [Literal.string, visit_ok] at h
  simp only [run_bind_ok, expect_ok, run_pure_ok] at h
  obtain ⟨ds, c, cs, ⟨hcs, hc⟩, rfl, rfl⟩ := h
  exact ⟨c.tree, _, children_of_childList hcs, by rw [c.rule?_eq, hc], rfl⟩

theorem Expr.ofLiteral_ok {e : Expr} (h : ofLiteral t = .ok e) :
    ∃ v rest, t.children = v :: rest ∧
      ((∃ n, v.rule? = some .intLit ∧ Literal.integer v = .ok n ∧ e = .int n) ∨
        (∃ x, v.rule? = some .floatLit ∧ Literal.float v = .ok x ∧ e = .float x) ∨
        (∃ s, v.rule? = some .strLit ∧ Literal.string v = .ok s ∧ e = .str s) ∨
        ∃ b, v.rule? = some .boolLit ∧ Literal.boolean v = .ok b ∧ e = .bool b) := by
  rw [ofLiteral, visit_ok] at h
  obtain ⟨ds, h⟩ := h
  obtain ⟨c, cs, v, hcs, hv, h⟩ := next_bind_ok h
  have hrule := c.rule?_eq
  refine ⟨c.tree, _, children_of_childList hcs, ?_⟩
  split at hv
  · next hr =>
    subst hv
    simp only [run_bind_ok, lift_ok, run_pure_ok] at h
    obtain ⟨n, _, ⟨hn, -⟩, rfl, -⟩ := h
    exact .inl ⟨n, by rw [hrule, hr], hn, rfl⟩
  · next hr =>
    subst hv
    simp only [run_bind_ok, lift_ok, run_pure_ok] at h
    obtain ⟨x, _, ⟨hx, -⟩, rfl, -⟩ := h
    exact .inr (.inl ⟨x, by rw [hrule, hr], hx, rfl⟩)
  · next hr =>
    subst hv
    simp only [run_bind_ok, lift_ok, run_pure_ok] at h
    obtain ⟨s, _, ⟨hs, -⟩, rfl, -⟩ := h
    exact .inr (.inr (.inl ⟨s, by rw [hrule, hr], hs, rfl⟩))
  · next hr =>
    subst hv
    simp only [run_bind_ok, lift_ok, run_pure_ok] at h
    obtain ⟨b, _, ⟨hb, -⟩, rfl, -⟩ := h
    exact .inr (.inr (.inr ⟨b, by rw [hrule, hr], hb, rfl⟩))
  · subst hv
    cases h

/-! ### Operators -/

theorem Visit.binaryOp_ok {c : t.Child} {cs ds : List t.Child} {op : BinaryOp} :
    binaryOp c cs = .ok (op, ds) ↔ BinaryOp.ofSymbol? c.tree.string = some op ∧ ds = cs := by
  rw [binaryOp]
  cases BinaryOp.ofSymbol? c.tree.string with
  | none => simp
  | some o => simp [@eq_comm _ cs]

theorem Visit.unaryOp_ok {c : t.Child} {cs ds : List t.Child} {op : UnaryOp} :
    unaryOp c cs = .ok (op, ds) ↔ UnaryOp.ofSymbol? c.tree.string = some op ∧ ds = cs := by
  rw [unaryOp]
  cases UnaryOp.ofSymbol? c.tree.string with
  | none => simp
  | some o => simp [@eq_comm _ cs]

namespace Expr

instance : Nonempty Expr := ⟨.bool true⟩

section Tiers

variable {operand opRule tier : Rule} {read : Tree → Except Fault Expr} {e : Expr}

/-- An operator and its two operands, or a single operand. -/
theorem ofPair_ok (h : ofPair t operand opRule (fun c => read c.tree) = .ok e) :
    ∃ l pairs ops x xs, Chain t operand opRule l pairs ops ∧ pairs.length ≤ 1 ∧ read l = .ok x ∧
      (pairs.map Prod.snd).mapM read = .ok xs ∧
      e = (ops.zip xs).foldl (fun e p => .binary p.1 e p.2) x := by
  rw [ofPair, visitAll_ok] at h
  simp only [run_bind_ok, expect_ok, lift_ok] at h
  obtain ⟨c, cs, ⟨hcs, hc⟩, x, _, ⟨hx, rfl⟩, o, ds, ho, h⟩ := h
  rcases optional_ok ho with ⟨o, rfl, rfl, hor⟩ | ⟨rfl, rfl⟩
  · simp only [run_bind_ok, binaryOp_ok, expect_ok, lift_ok, run_pure_ok] at h
    obtain ⟨op, _, ⟨hop, rfl⟩, d, _, ⟨rfl, hd⟩, y, _, ⟨hy, rfl⟩, rfl, rfl⟩ := h
    refine ⟨c.tree, [(o.tree, d.tree)], [op], x, [y], ?_, Nat.le_refl 1, hx, ?_, rfl⟩
    · refine ⟨children_of_childList hcs, by rw [c.rule?_eq, hc], ?_, by simp [hop]⟩
      simp [o.rule?_eq, d.rule?_eq, hor, hd]
    · simp [hy]
  · simp only [run_pure_ok] at h
    obtain ⟨rfl, rfl⟩ := h
    exact ⟨c.tree, [], [], e, [], ⟨children_of_childList hcs, by rw [c.rule?_eq, hc], by simp, rfl⟩,
      Nat.zero_le 1, hx, rfl, rfl⟩

/-- Operators and operands in turn, to the last child. -/
theorem applyLeft_ok (n : Nat) : ∀ {left : Expr} {cs : List t.Child}, cs.length ≤ n →
    applyLeft operand opRule (fun c => read c.tree) left cs = .ok (e, []) →
    ∃ (pairs : List (Tree × Tree)) (ops : List BinaryOp) (xs : List Expr),
      cs.map Child.tree = pairs.flatMap (fun p => [p.1, p.2]) ∧
      (∀ p ∈ pairs, p.1.rule? = some opRule ∧ p.2.rule? = some operand) ∧
      pairs.map (fun p => BinaryOp.ofSymbol? p.1.string) = ops.map some ∧
      (pairs.map Prod.snd).mapM read = .ok xs ∧
      e = (ops.zip xs).foldl (fun e p => .binary p.1 e p.2) left := by
  induction n with
  | zero =>
    intro left cs hn h
    obtain rfl := List.length_eq_zero_iff.mp (Nat.le_zero.mp hn)
    rw [applyLeft] at h
    cases h
    exact ⟨[], [], [], rfl, by simp, rfl, rfl, rfl⟩
  | succ n ih =>
    intro left cs hn h
    cases cs with
    | nil =>
      rw [applyLeft] at h
      cases h
      exact ⟨[], [], [], rfl, by simp, rfl, rfl, rfl⟩
    | cons o cs =>
      rw [applyLeft] at h
      split at h
      · next ho =>
        rw [bind_ok] at h
        obtain ⟨⟨op, ds⟩, hop, h⟩ := h
        obtain ⟨hsymbol, -⟩ := binaryOp_ok.mp hop
        cases cs with
        | nil => cases h
        | cons c rest =>
          dsimp only at h
          split at h
          · next hc =>
            rw [bind_ok] at h
            obtain ⟨y, hy, h⟩ := h
            have hlen : rest.length ≤ n := by
              simp only [List.length_cons] at hn
              omega
            obtain ⟨pairs, ops, xs, hcs, hp, hops, hxs, rfl⟩ := ih hlen h
            refine ⟨(o.tree, c.tree) :: pairs, op :: ops, y :: xs, by simp [hcs], ?_, by
              simp [hsymbol, hops], ?_, rfl⟩
            · intro p hmem
              rcases List.mem_cons.mp hmem with rfl | hmem
              · exact ⟨by rw [o.rule?_eq, ho], by rw [c.rule?_eq, hc]⟩
              · exact hp p hmem
            · rw [List.map_cons, List.mapM_cons, hy, hxs]
              rfl
          · cases h
      · cases h

theorem ofChain_ok (h : ofChain t operand opRule (fun c => read c.tree) = .ok e) :
    ∃ l pairs ops x xs, Chain t operand opRule l pairs ops ∧ read l = .ok x ∧
      (pairs.map Prod.snd).mapM read = .ok xs ∧
      e = (ops.zip xs).foldl (fun e p => .binary p.1 e p.2) x := by
  rw [ofChain, visitAll_ok] at h
  simp only [run_bind_ok, expect_ok, lift_ok] at h
  obtain ⟨c, cs, ⟨hcs, hc⟩, x, _, ⟨hx, rfl⟩, h⟩ := h
  obtain ⟨pairs, ops, xs, hpairs, hp, hops, hxs, rfl⟩ := applyLeft_ok _ (Nat.le_refl _) h
  refine ⟨c.tree, pairs, ops, x, xs, ⟨?_, by rw [c.rule?_eq, hc], hp, hops⟩, hx, hxs, rfl⟩
  rw [children_of_childList hcs, List.map_cons, hpairs]

/-- An operator and a node of the same tier, or the operand itself. -/
theorem ofSigned_ok (h : ofSigned t opRule tier operand (fun c _ => read c) = .ok e) :
    (∃ d, t.children = [d] ∧ d.rule? = some operand ∧ read d = .ok e) ∨
      ∃ o d op e', t.children = [o, d] ∧ o.rule? = some opRule ∧ d.rule? = some tier ∧
        UnaryOp.ofSymbol? o.string = some op ∧
        ofSigned d opRule tier operand (fun c _ => read c) = .ok e' ∧ e = .unary op e' := by
  rw [ofSigned_eq] at h
  obtain ⟨s, hs, h⟩ := bind_ok.mp h
  rw [signStep, visit_ok] at hs
  simp only [run_bind_ok] at hs
  obtain ⟨es, o, cs, ho, hs⟩ := hs
  rcases optional_ok ho with ⟨o, rfl, hcs, hor⟩ | ⟨rfl, hcs⟩
  · -- the operator at the head is applied to what the inner node gives
    simp only [run_bind_ok, unaryOp_ok, expect_ok, finish_ok, run_pure_ok] at hs
    obtain ⟨op, _, ⟨hop, rfl⟩, c, _, ⟨rfl, hc⟩, _, _, ⟨rfl, rfl⟩, rfl, -⟩ := hs
    obtain ⟨e', he', rfl⟩ := fmap_eq_ok.mp h
    exact .inr ⟨o.tree, c.tree, op, e', children_of_childList hcs, by rw [o.rule?_eq, hor],
      by rw [c.rule?_eq, hc], hop, he', rfl⟩
  · -- the operand stands alone
    simp only [run_pure_ok] at hs
    obtain ⟨rfl, -⟩ := hs
    rw [visitAll_ok] at h
    simp only [run_bind_ok, expect_ok, lift_ok] at h
    obtain ⟨c, _, ⟨hlist, hc⟩, hread, rfl⟩ := h
    exact .inl ⟨c.tree, children_of_childList hlist, by rw [c.rule?_eq, hc], hread⟩

end Tiers

/-! ### Tiers by number -/

section Tier

variable {k : Nat} {e : Expr}

theorem ofTier_eq_ofPair (hk : k < 2) :
    ofTier k t = ofPair t (tierRule (k + 1)) (opRule k) fun c => ofTier (k + 1) c.tree := by
  match k, hk with
  | 0, _ => exact ofTree.eq_1 t
  | 1, _ => exact ofRelational.eq_1 t

theorem ofTier_eq_ofChain (h2 : 2 ≤ k) (h5 : k < 5) :
    ofTier k t = ofChain t (tierRule (k + 1)) (opRule k) fun c => ofTier (k + 1) c.tree := by
  match k, h2, h5 with
  | 2, _, _ => exact ofLogical.eq_1 t
  | 3, _, _ => exact ofAdditive.eq_1 t
  | 4, _, _ => exact ofMultiplicative.eq_1 t

/-- Between operands, only the two loosest tiers have no more than one operator. -/
theorem ofTier_chain_ok (hk : k < 5) (h : ofTier k t = .ok e) :
    ∃ l pairs ops x xs, Chain t (tierRule (k + 1)) (opRule k) l pairs ops ∧
      (k < 2 → pairs.length ≤ 1) ∧ ofTier (k + 1) l = .ok x ∧
      (pairs.map Prod.snd).mapM (ofTier (k + 1)) = .ok xs ∧
      e = (ops.zip xs).foldl (fun e p => .binary p.1 e p.2) x := by
  by_cases h2 : k < 2
  · rw [ofTier_eq_ofPair h2] at h
    obtain ⟨l, pairs, ops, x, xs, hc, hlen, hx, hxs, he⟩ := ofPair_ok h
    exact ⟨l, pairs, ops, x, xs, hc, fun _ => hlen, hx, hxs, he⟩
  · rw [ofTier_eq_ofChain (Nat.le_of_not_lt h2) hk] at h
    obtain ⟨l, pairs, ops, x, xs, hc, hx, hxs, he⟩ := ofChain_ok h
    exact ⟨l, pairs, ops, x, xs, hc, fun h => absurd h h2, hx, hxs, he⟩

theorem ofTier_eq_ofSigned (s : UnaryOp) (hr : t.rule? = some (tierRule s.tier)) :
    ofTier s.tier t =
      ofSigned t s.rule (tierRule s.tier) (tierRule (s.tier + 1))
        fun c _ => ofTier (s.tier + 1) c := by
  cases s with
  | not =>
    show ofNot t = _
    rw [ofNot, hr]
    rfl
  | neg =>
    show ofNeg t = _
    rw [ofNeg, hr]
    rfl

theorem ofTier_sign_ok (s : UnaryOp) (hr : t.rule? = some (tierRule s.tier))
    (h : ofTier s.tier t = .ok e) :
    (∃ d, t.children = [d] ∧ d.rule? = some (tierRule (s.tier + 1)) ∧
        ofTier (s.tier + 1) d = .ok e) ∨
      ∃ o d op e', t.children = [o, d] ∧ o.rule? = some s.rule ∧ d.rule? = some (tierRule s.tier) ∧
        UnaryOp.ofSymbol? o.string = some op ∧ ofTier s.tier d = .ok e' ∧ e = .unary op e' := by
  rw [ofTier_eq_ofSigned s hr] at h
  rcases ofSigned_ok h with hone | ⟨o, d, op, e', hc, ho, hd, hop, he', he⟩
  · exact .inl hone
  · refine .inr ⟨o, d, op, e', hc, ho, hd, hop, ?_, he⟩
    rw [ofTier_eq_ofSigned s hd]
    exact he'

end Tier

/-! ### Operands -/

/-- The rules of the nodes that an operand can be. -/
def primaryRules : List Rule :=
  [.literal, .arrayCell, .funcCall, .identifier, .expression, .arrayLit]

theorem ofPrimary_ok {e : Expr} (h : ofPrimary t = .ok e) :
    ∃ p, t.children = [p] ∧
      (p.rule? = some .literal ∧ ofLiteral p = .ok e ∨
        (∃ n es, p.rule? = some .arrayCell ∧ ofCell p = .ok (n, es) ∧ e = .cell n es) ∨
        (∃ n es, p.rule? = some .funcCall ∧ ofCall p = .ok (n, es) ∧ e = .call n es) ∨
        (p.rule? = some .identifier ∧ e = .id p.string) ∨
        (p.rule? = some .expression ∧ ofTree p = .ok e) ∨
        ∃ es, p.rule? = some .arrayLit ∧ ofArray p = .ok es ∧ e = .array es) := by
  rw [ofPrimary, visitAll_ok] at h
  obtain ⟨c, cs, v, hcs, hv, h⟩ := next_bind_ok h
  have hrule := c.rule?_eq
  suffices cs = [] ∧ _ from ⟨c.tree, by rw [children_of_childList hcs, this.1]; rfl, this.2⟩
  split at hv
  · next hr =>
    subst hv
    obtain ⟨he, rfl⟩ := lift_ok.mp h
    exact ⟨rfl, .inl ⟨by rw [hrule, hr], he⟩⟩
  · next hr =>
    subst hv
    simp only [run_bind_ok, lift_ok, run_pure_ok] at h
    obtain ⟨⟨n, es⟩, _, ⟨hn, rfl⟩, rfl, rfl⟩ := h
    exact ⟨rfl, .inr (.inl ⟨n, es, by rw [hrule, hr], hn, rfl⟩)⟩
  · next hr =>
    subst hv
    simp only [run_bind_ok, lift_ok, run_pure_ok] at h
    obtain ⟨⟨n, es⟩, _, ⟨hn, rfl⟩, rfl, rfl⟩ := h
    exact ⟨rfl, .inr (.inr (.inl ⟨n, es, by rw [hrule, hr], hn, rfl⟩))⟩
  · next hr =>
    subst hv
    obtain ⟨rfl, rfl⟩ := run_pure_ok.mp h
    exact ⟨rfl, .inr (.inr (.inr (.inl ⟨by rw [hrule, hr], rfl⟩)))⟩
  · next hr =>
    subst hv
    obtain ⟨he, rfl⟩ := lift_ok.mp h
    exact ⟨rfl, .inr (.inr (.inr (.inr (.inl ⟨by rw [hrule, hr], he⟩))))⟩
  · next hr =>
    subst hv
    simp only [run_bind_ok, lift_ok, run_pure_ok] at h
    obtain ⟨es, _, ⟨hes, rfl⟩, rfl, rfl⟩ := h
    exact ⟨rfl, .inr (.inr (.inr (.inr (.inr ⟨es, by rw [hrule, hr], hes, rfl⟩))))⟩
  · subst hv
    cases h

theorem ofArguments_ok {es : List Expr} (h : ofArguments t = .ok es) :
    (∀ c ∈ t.children, c.rule? = some .expression) ∧ t.children.mapM ofTree = .ok es := by
  rw [ofArguments] at h
  exact visitAll_many_ok h

theorem ofArray_ok {es : List Expr} (h : ofArray t = .ok es) :
    ∃ a : Option Tree, t.children = a.toList ∧ (∀ b ∈ a, b.rule? = some .arguments) ∧
      (∀ b ∈ a, ofArguments b = .ok es) ∧ (a = none → es = []) := by
  rw [ofArray, visitAll_ok] at h
  simp only [run_bind_ok] at h
  obtain ⟨o, cs, ho, h⟩ := h
  rcases optional_ok ho with ⟨c, rfl, hcs, hc⟩ | ⟨rfl, hcs⟩
  · obtain ⟨hes, rfl⟩ := lift_ok.mp h
    exact ⟨some c.tree, children_of_childList hcs, by simp [c.rule?_eq, hc], by simp [hes], by simp⟩
  · obtain ⟨rfl, rfl⟩ := run_pure_ok.mp h
    exact ⟨none, children_of_childList hcs, by simp, by simp, fun _ => rfl⟩

theorem ofCell_ok {n : String} {es : List Expr} (h : ofCell t = .ok (n, es)) :
    ∃ i a, t.children = [i, a] ∧ i.rule? = some .identifier ∧ a.rule? = some .arguments ∧
      ofArguments a = .ok es ∧ es ≠ [] ∧ n = i.string := by
  rw [ofCell, visitAll_ok] at h
  simp only [run_bind_ok, expect_ok, lift_ok] at h
  obtain ⟨i, _, ⟨hcs, hi⟩, a, _, ⟨rfl, ha⟩, xs, _, ⟨hxs, rfl⟩, h⟩ := h
  cases xs with
  | nil => cases h
  | cons x xs =>
    obtain ⟨heq, rfl⟩ := run_pure_ok.mp h
    cases heq
    exact ⟨i.tree, a.tree, children_of_childList hcs, by rw [i.rule?_eq, hi], by rw [a.rule?_eq, ha],
      hxs, by simp, rfl⟩

theorem ofCall_ok {n : String} {es : List Expr} (h : ofCall t = .ok (n, es)) :
    ∃ (i : Tree) (a : Option Tree), t.children = i :: a.toList ∧ i.rule? = some .identifier ∧
      (∀ b ∈ a, b.rule? = some .arguments) ∧ (∀ b ∈ a, ofArguments b = .ok es) ∧
      (a = none → es = []) ∧ n = i.string := by
  rw [ofCall, visitAll_ok] at h
  simp only [run_bind_ok, expect_ok] at h
  obtain ⟨i, _, ⟨hcs, hi⟩, o, cs, ho, h⟩ := h
  have hrule : i.tree.rule? = some .identifier := by rw [i.rule?_eq, hi]
  rcases optional_ok ho with ⟨c, rfl, rfl, hc⟩ | ⟨rfl, rfl⟩
  · simp only [run_bind_ok, lift_ok, run_pure_ok] at h
    obtain ⟨xs, _, ⟨hxs, rfl⟩, heq, rfl⟩ := h
    cases heq
    exact ⟨i.tree, some c.tree, children_of_childList hcs, hrule, by simp [c.rule?_eq, hc],
      by simp [hxs], by simp, rfl⟩
  · obtain ⟨heq, rfl⟩ := run_pure_ok.mp h
    cases heq
    exact ⟨i.tree, none, children_of_childList hcs, hrule, by simp, by simp, fun _ => rfl, rfl⟩

/-! ### Expressions that are made of a node -/

/-- The expressions `es` were made of the node `t`.  A node in parentheses, between commas or beside
an operator has one expression; the arguments of a call, an array or a cell have a list of them. -/
inductive Made : Tree → List Expr → Prop
  | literal {t : Tree} {e : Expr} (hr : t.rule? = some .literal) (he : ofLiteral t = .ok e) :
      Made t [e]
  | name {t : Tree} (hr : t.rule? = some .identifier) : Made t [.id t.string]
  | chain {t l : Tree} {pairs : List (Tree × Tree)} {ops : List BinaryOp} {x : Expr}
      {f : Tree → Expr} (k : Nat) (hk : k < 5) (hr : t.rule? = some (tierRule k))
      (hc : Chain t (tierRule (k + 1)) (opRule k) l pairs ops) (hlen : k < 2 → pairs.length ≤ 1)
      (hl : Made l [x]) (hps : ∀ d ∈ pairs.map Prod.snd, Made d [f d]) :
      Made t [(ops.zip ((pairs.map Prod.snd).map f)).foldl (fun e p => .binary p.1 e p.2) x]
  | operand {t d : Tree} {e : Expr} (s : UnaryOp) (hr : t.rule? = some (tierRule s.tier))
      (hc : t.children = [d]) (hd : d.rule? = some (tierRule (s.tier + 1))) (he : Made d [e]) :
      Made t [e]
  | sign {t o d : Tree} {op : UnaryOp} {e : Expr} (s : UnaryOp)
      (hr : t.rule? = some (tierRule s.tier)) (hc : t.children = [o, d])
      (ho : o.rule? = some s.rule) (hd : d.rule? = some (tierRule s.tier))
      (hop : UnaryOp.ofSymbol? o.string = some op) (he : Made d [e]) : Made t [.unary op e]
  | primary {t p : Tree} {r : Rule} {e : Expr} (hr : t.rule? = some .primary)
      (hc : t.children = [p]) (hp : p.rule? = some r) (hmem : r ∈ primaryRules) (he : Made p [e]) :
      Made t [e]
  | arguments {t : Tree} {f : Tree → Expr} (hr : t.rule? = some .arguments)
      (hc : ∀ c ∈ t.children, c.rule? = some .expression) (hes : ∀ c ∈ t.children, Made c [f c]) :
      Made t (t.children.map f)
  | array {t : Tree} {a : Option Tree} {es : List Expr} (hr : t.rule? = some .arrayLit)
      (hc : t.children = a.toList) (ha : ∀ b ∈ a, b.rule? = some .arguments)
      (hes : ∀ b ∈ a, Made b es) (hnone : a = none → es = []) : Made t [.array es]
  | cell {t i a : Tree} {es : List Expr} (hr : t.rule? = some .arrayCell) (hc : t.children = [i, a])
      (hi : i.rule? = some .identifier) (ha : a.rule? = some .arguments) (hes : Made a es)
      (hne : es ≠ []) : Made t [.cell i.string es]
  | call {t i : Tree} {a : Option Tree} {es : List Expr} (hr : t.rule? = some .funcCall)
      (hc : t.children = i :: a.toList) (hi : i.rule? = some .identifier)
      (ha : ∀ b ∈ a, b.rule? = some .arguments) (hes : ∀ b ∈ a, Made b es)
      (hnone : a = none → es = []) : Made t [.call i.string es]

/-- What is made of `t`, at any place of an expression, was made of it. -/
structure Recovered (t : Tree) : Prop where
  tier : ∀ {k : Nat} {e : Expr}, t.rule? = some (tierRule k) → ofTier k t = .ok e → Made t [e]
  arguments : ∀ {es : List Expr}, t.rule? = some .arguments → ofArguments t = .ok es → Made t es
  array : ∀ {es : List Expr}, t.rule? = some .arrayLit → ofArray t = .ok es → Made t [.array es]
  cell : ∀ {n : String} {es : List Expr}, t.rule? = some .arrayCell → ofCell t = .ok (n, es) →
    Made t [.cell n es]
  call : ∀ {n : String} {es : List Expr}, t.rule? = some .funcCall → ofCall t = .ok (n, es) →
    Made t [.call n es]

section Step

variable (ih : ∀ u ∈ t.children, Recovered u)
include ih

/-- Results that are made of children, which all stand at one tier. -/
theorem Recovered.tiers {k : Nat} {us : List Tree} {xs : List Expr} (hsub : us ⊆ t.children)
    (hr : ∀ u ∈ us, u.rule? = some (tierRule k)) (h : us.mapM (ofTier k) = .ok xs) :
    ∃ f : Tree → Expr, xs = us.map f ∧ ∀ u ∈ us, Made u [f u] := by
  obtain ⟨f, hxs, hf⟩ := exists_map_of_mapM h
  exact ⟨f, hxs, fun u hu => (ih u (hsub hu)).tier (hr u hu) (hf u hu)⟩

theorem Recovered.chain_step {k : Nat} {e : Expr} (hk : k < 5) (hr : t.rule? = some (tierRule k))
    (h : ofTier k t = .ok e) : Made t [e] := by
  obtain ⟨l, pairs, ops, x, xs, hc, hlen, hx, hxs, rfl⟩ := ofTier_chain_ok hk h
  have hsub : pairs.map Prod.snd ⊆ t.children := by
    intro d hd
    obtain ⟨p, hp, rfl⟩ := List.mem_map.mp hd
    rw [hc.children]
    exact List.mem_cons_of_mem _ (List.mem_flatMap.mpr ⟨p, hp, by simp⟩)
  have hrules : ∀ d ∈ pairs.map Prod.snd, d.rule? = some (tierRule (k + 1)) := by
    intro d hd
    obtain ⟨p, hp, rfl⟩ := List.mem_map.mp hd
    exact (hc.rules p hp).2
  obtain ⟨f, rfl, hf⟩ := Recovered.tiers ih hsub hrules hxs
  have hl : l ∈ t.children := by simp [hc.children]
  exact .chain k hk hr hc hlen ((ih l hl).tier hc.head hx) hf

theorem Recovered.sign_step {e : Expr} (s : UnaryOp) (hr : t.rule? = some (tierRule s.tier))
    (h : ofTier s.tier t = .ok e) : Made t [e] := by
  rcases ofTier_sign_ok s hr h with ⟨d, hc, hd, he⟩ | ⟨o, d, op, e', hc, ho, hd, hop, he', rfl⟩
  · exact .operand s hr hc hd ((ih d (by simp [hc])).tier hd he)
  · exact .sign s hr hc ho hd hop ((ih d (by simp [hc])).tier hd he')

theorem Recovered.primary_step {e : Expr} (hr : t.rule? = some .primary)
    (h : ofPrimary t = .ok e) : Made t [e] := by
  obtain ⟨p, hc, hp⟩ := ofPrimary_ok h
  have hrec := ih p (by simp [hc])
  rcases hp with ⟨hp, he⟩ | ⟨n, es, hp, he, rfl⟩ | ⟨n, es, hp, he, rfl⟩ | ⟨hp, rfl⟩ | ⟨hp, he⟩ |
    ⟨es, hp, he, rfl⟩
  · exact .primary hr hc hp (by decide) (.literal hp he)
  · exact .primary hr hc hp (by decide) (hrec.cell hp he)
  · exact .primary hr hc hp (by decide) (hrec.call hp he)
  · exact .primary hr hc hp (by decide) (.name hp)
  · exact .primary hr hc hp (by decide) (Recovered.tier (k := 0) hrec hp he)
  · exact .primary hr hc hp (by decide) (hrec.array hp he)

theorem Recovered.step : Recovered t where
  tier := by
    intro k e hr h
    by_cases hk : k < 5
    · exact Recovered.chain_step ih hk hr h
    · match k, hk with
      | 5, _ => exact Recovered.sign_step ih .not hr h
      | 6, _ => exact Recovered.sign_step ih .neg hr h
      | n + 7, _ => exact Recovered.primary_step ih hr h
  arguments := by
    intro es hr h
    obtain ⟨hc, hes⟩ := ofArguments_ok h
    obtain ⟨f, rfl, hf⟩ := Recovered.tiers (k := 0) ih (List.Subset.refl _) hc hes
    exact .arguments hr hc hf
  array := by
    intro es hr h
    obtain ⟨a, hc, ha, hes, hnone⟩ := ofArray_ok h
    refine .array hr hc ha (fun b hb => ?_) hnone
    exact (ih b (by simp [hc, Option.mem_def.mp hb])).arguments (ha b hb) (hes b hb)
  cell := by
    intro n es hr h
    obtain ⟨i, a, hc, hi, ha, hes, hne, rfl⟩ := ofCell_ok h
    exact .cell hr hc hi ha ((ih a (by simp [hc])).arguments ha hes) hne
  call := by
    intro n es hr h
    obtain ⟨i, a, hc, hi, ha, hes, hnone, rfl⟩ := ofCall_ok h
    refine .call hr hc hi ha (fun b hb => ?_) hnone
    exact (ih b (by simp [hc, Option.mem_def.mp hb])).arguments (ha b hb) (hes b hb)

end Step

theorem recovered (t : Tree) : Recovered t :=
  Recovered.step fun u _ => recovered u
termination_by sizeOf t
decreasing_by exact sizeOf_lt_of_mem_children ‹_›

theorem made_of_ofTree {e : Expr} (hr : t.rule? = some .expression) (h : ofTree t = .ok e) :
    Made t [e] := Recovered.tier (k := 0) (recovered t) hr h

end Expr

end Mt22
