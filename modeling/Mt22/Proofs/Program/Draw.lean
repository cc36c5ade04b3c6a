import Mt22.Proofs.Program.OfDecl
import Mt22.Proofs.Program.Print
import Mt22.Proofs.Token.Value
import Mt22.Proofs.Tree.Grow
import Mt22.Proofs.Tree.Shapes

/-!
# Drawn expressions and types

For every way to build an expression or a type, a tree that it is made of.

* `Drawn r make x ws`: some node of rule `r` has the tokens `ws`, and `make` makes `x` of it.
* `Expr.DrawnAt k e ws`: the same for the tier `k` of expressions.  What is drawn at a tier can stand
  at a looser one (`Expr.DrawnAt.loosen`), in parentheses at any (`Expr.DrawnAt.parenthesized`), and
  next to an operator where the tier of the operator says (`Expr.DrawnAt.binary`).
* `Expr.drawnAt`: what is printed of a well-formed expression is drawn.
-/

namespace Mt22

open Mt22.Tree Mt22.Token Mt22.Peg

/-- Some node of the rule has these tokens, and `x` is made of it. -/
def Drawn {α : Type} (r : Rule) (make : Tree → Except Fault α) (x : α) (ws : List (List Char)) :
    Prop :=
  ∃ t, Grown r t ws ∧ make t = .ok x

namespace Drawn

variable {α : Type} {r : Rule} {make : Tree → Except Fault α}

theorem node {x : α} {ts : List Tree} {ws : List (List Char)} (h : Grows r.body ts ws)
    (hk : r.kind = .plain) (hr : r ≠ .ifStmt) (hx : make (.node r 0 0 ts) = .ok x) :
    Drawn r make x ws :=
  ⟨_, h.node hk hr, hx⟩

/-- Nodes for all of a list. -/
theorem all {xs : List α} {wss : List (List (List Char))} (h : List.Forall₂ (Drawn r make) xs wss) :
    ∃ ts, List.Forall₂ (Grown r) ts wss ∧ ts.mapM make = .ok xs := by
  induction h with
  | nil => exact ⟨[], .nil, rfl⟩
  | cons hx _ ih =>
    obtain ⟨t, ht, hm⟩ := hx
    obtain ⟨ts, hts, hms⟩ := ih
    exact ⟨t :: ts, .cons ht hts, by rw [List.mapM_cons, hm, hms]; rfl⟩

end Drawn

theorem Tree.Grown.rules {r : Rule} {ts : List Tree} {wss : List (List (List Char))}
    (h : List.Forall₂ (Grown r) ts wss) : ∀ t ∈ ts, t.rule? = some r := by
  induction h with
  | nil => simp
  | cons ht _ ih =>
    intro u hu
    rcases List.mem_cons.mp hu with rfl | hu
    · exact ht.is.rule
    · exact ih u hu

/-! ### Operators -/

/-- The rule of the operators of a tier. -/
def opRule : Nat → Rule
  | 0 => .concatOp
  | 1 => .relOp
  | 2 => .logicOp
  | 3 => .addOp
  | _ => .mulOp

/-- The node of an operator. -/
def BinaryOp.tree (op : BinaryOp) : Tree := .node (opRule op.tier) 0 0 [.token op.symbol.toList]

theorem BinaryOp.string_tree (op : BinaryOp) : op.tree.string = op.symbol := by
  simp [BinaryOp.tree, Tree.string, Tree.text, textAll]

theorem BinaryOp.grown (op : BinaryOp) : Grown (opRule op.tier) op.tree [op.symbol.toList] := by
  have hfits : (opRule op.tier).body.Fits [.token op.symbol.toList] := by
    cases op <;> simp [opRule, BinaryOp.tier, BinaryOp.symbol, Rule.body, oneOf]
  have hgrows : Grows (opRule op.tier).body [.token op.symbol.toList] [op.symbol.toList] :=
    ⟨hfits, rfl, rfl, by simp [isNode]⟩
  exact hgrows.node (by cases op <;> rfl) (by cases op <;> decide)

theorem UnaryOp.grown (op : UnaryOp) :
    Grown op.rule (.node op.rule 0 0 [.token op.symbol.toList]) [op.symbol.toList] := by
  cases op with
  | not => exact Grows.node (r := .notOp) (.text _) rfl (by decide)
  | neg => exact Grows.node (r := .negOp) (.text _) rfl (by decide)

/-! ### Tiers of expressions -/

namespace Expr

/-- The rule of a tier, the loosest first. -/
def tierRule : Nat → Rule
  | 0 => .expression
  | 1 => .relational
  | 2 => .logical
  | 3 => .additive
  | 4 => .multiplicative
  | 5 => .notExpr
  | 6 => .negExpr
  | _ => .primary

/-- What is made of a node of a tier. -/
def ofTier : Nat → Tree → Except Fault Expr
  | 0 => ofTree
  | 1 => ofRelational
  | 2 => ofLogical
  | 3 => ofAdditive
  | 4 => ofMultiplicative
  | 5 => ofNot
  | 6 => ofNeg
  | _ => ofPrimary

/-- Some node of the tier has these tokens, and the expression is made of it. -/
abbrev DrawnAt (k : Nat) (e : Expr) (ws : List (List Char)) : Prop :=
  Drawn (tierRule k) (ofTier k) e ws

/-- A tier without an operator is what its only operand is. -/
theorem grown_step {k : Nat} {t : Tree} {ws : List (List Char)} (ht : Grown (tierRule (k + 1)) t ws)
    (hk : k < 7) : ∃ u, Grown (tierRule k) u ws ∧ ofTier k u = ofTier (k + 1) t := by
  have hr := ht.is.rule
  have hc : ∀ r : Rule, (Tree.node r 0 0 [t]).children = [t] := fun r => nodes_cons_of_rule hr []
  have hone : ∀ {a : Peg}, Grows a [] [] → Grows (.seq (.call (tierRule (k + 1))) a) [t] ws := by
    intro a ha
    have := (Grows.call ht).item ha
    rwa [List.append_nil] at this
  match k, hk with
  | 0, _ =>
    exact ⟨_, Grows.node (r := .expression) (hone .without) rfl (by decide), ofTree_one (hc _) hr⟩
  | 1, _ =>
    exact ⟨_, Grows.node (r := .relational) (hone .without) rfl (by decide),
      ofRelational_one (hc _) hr⟩
  | 2, _ =>
    exact ⟨_, Grows.node (r := .logical) (hone .nil) rfl (by decide), ofLogical_one (hc _) hr⟩
  | 3, _ =>
    exact ⟨_, Grows.node (r := .additive) (hone .nil) rfl (by decide), ofAdditive_one (hc _) hr⟩
  | 4, _ =>
    exact ⟨_, Grows.node (r := .multiplicative) (hone .nil) rfl (by decide),
      ofMultiplicative_one (hc _) hr⟩
  | 5, _ =>
    exact ⟨_, Grows.node (r := .notExpr) (Grows.call ht).right rfl (by decide),
      ofNot_one (hc _) hr⟩
  | 6, _ =>
    exact ⟨_, Grows.node (r := .negExpr) (Grows.call ht).right rfl (by decide),
      ofNeg_one (hc _) hr⟩

/-- What stands at a tier can stand at a looser one, and is the same there. -/
theorem grown_loosen {j k : Nat} {t : Tree} {ws : List (List Char)} (h : Grown (tierRule k) t ws)
    (hjk : j ≤ k) (hk : k ≤ 7) : ∃ u, Grown (tierRule j) u ws ∧ ofTier j u = ofTier k t := by
  induction hjk generalizing t with
  | refl => exact ⟨t, h, rfl⟩
  | @step k _ ih =>
    obtain ⟨u, hu, huv⟩ := grown_step h (by omega)
    obtain ⟨v, hv, hvv⟩ := ih hu (by omega)
    exact ⟨v, hv, hvv.trans huv⟩

namespace DrawnAt

variable {e l r : Expr} {vs ws : List (List Char)}

/-- What is drawn at a tier can stand at a looser one. -/
theorem loosen {j k : Nat} (h : DrawnAt k e ws) (hjk : j ≤ k) (hk : k ≤ 7) : DrawnAt j e ws := by
  obtain ⟨t, ht, hv⟩ := h
  obtain ⟨u, hu, huv⟩ := grown_loosen ht hjk hk
  exact ⟨u, hu, huv.trans hv⟩

/-- A tier without an operator is what its only operand is. -/
theorem step {k : Nat} (h : DrawnAt (k + 1) e ws) (hk : k < 7) : DrawnAt k e ws :=
  h.loosen (Nat.le_succ k) hk

theorem parenthesized (h : DrawnAt 0 e ws) :
    DrawnAt 7 e ("(".toList :: (ws ++ [")".toList])) := by
  obtain ⟨t, ht, hv⟩ := h
  have hbody : Grows (items ["(", .call .expression, ")"])
      [.token "(".toList, t, .token ")".toList] ("(".toList :: (ws ++ [")".toList])) :=
    (Grows.text _).item ((Grows.call ht).item (Grows.text _))
  refine .node hbody.left.right.right.right.right rfl (by decide) ?_
  have hc : (Tree.node .primary 0 0 [.token "(".toList, t, .token ")".toList]).children = [t] := by
    rw [children, parts, nodes_cons_token, nodes_cons_of_rule ht.is.rule]
    rfl
  exact (ofPrimary_eq hc ht.is.rule (by decide)).trans hv

/-- A tier with one operator at most. -/
theorem pair {op : BinaryOp} (hop : op.tier < 2) (hl : DrawnAt (op.tier + 1) l vs)
    (hr : DrawnAt (op.tier + 1) r ws) :
    DrawnAt op.tier (.binary op l r) (vs ++ op.symbol.toList :: ws) := by
  obtain ⟨t, ht, hx⟩ := hl
  obtain ⟨u, hu, hy⟩ := hr
  have ho := op.grown
  have hsymbol : BinaryOp.ofSymbol? op.tree.string = some op := by
    rw [op.string_tree, op.ofSymbol?_symbol]
  have hbody := (Grows.call ht).item ((Grows.call ho).item (Grows.call hu)).within
  generalize op.tier = k at hop ht hu hx hy ho hbody
  have hc : ∀ r : Rule, (Tree.node r 0 0 [t, op.tree, u]).children = [t, op.tree, u] := fun r => by
    rw [children, parts, nodes_cons_of_rule ht.is.rule, nodes_cons_of_rule ho.is.rule,
      nodes_cons_of_rule hu.is.rule, nodes_nil]
  have htier : k = 0 ∨ k = 1 := by omega
  rcases htier with rfl | rfl
  · have hx : ofRelational t = .ok l := hx
    have hy : ofRelational u = .ok r := hy
    refine .node hbody rfl (by decide) ?_
    rw [ofTier, ofTree_three (hc _) ht.is.rule ho.is.rule hu.is.rule hsymbol, hx, hy]
    rfl
  · have hx : ofLogical t = .ok l := hx
    have hy : ofLogical u = .ok r := hy
    refine .node hbody rfl (by decide) ?_
    rw [ofTier, ofRelational_three (hc _) ht.is.rule ho.is.rule hu.is.rule hsymbol, hx, hy]
    rfl

/-- A tier whose operators are applied to the left takes one operator more. -/
theorem snoc {R operand o : Rule} {op : BinaryOp} {make read : Tree → Except Fault Expr}
    (hb : R.body = .seq (.call operand) (.star (.seq (.call o) (.call operand))))
    (hk : R.kind = .plain) (hif : R ≠ .ifStmt) (hop : opRule op.tier = o)
    (hmake : ∀ t, make t = ofChain t operand o fun c => read c.tree)
    (hl : Drawn R make l vs) (hr : Drawn operand read r ws) :
    Drawn R make (.binary op l r) (vs ++ op.symbol.toList :: ws) := by
  obtain ⟨t, ht, hx⟩ := hl
  obtain ⟨u, hu, hy⟩ := hr
  have ho := op.grown
  rw [hop] at ho
  have hgrows := ht.grows hk
  rw [hb] at hgrows
  have hmore := hgrows.seq ((Grows.call ho).item (Grows.call hu))
  have hfits : R.body.Fits (solid t.parts ++ [op.tree, u]) := by
    obtain ⟨xs, ys, hparts, hxs, hys⟩ := Fits.seq_iff.mp hgrows.fits
    have hlast : Fits (.star (.seq (.call o) (.call operand))) [op.tree, u] := by
      have := Fits.cons (Fits.item (.call ho.is.rule) (.call hu.is.rule)) .nil
      rwa [List.append_nil] at this
    rw [hb, hparts, List.append_assoc]
    exact .seq hxs (hys.star_append hlast)
  obtain ⟨y, pairs, hc, hy', hp⟩ := ht.is.chain (by rw [hk]; decide) hb
  obtain ⟨ops, hops⟩ := exists_ops (by rw [← hop]; cases op <;> decide) fun p hmem => (hp p hmem).1
  refine .node ⟨hfits, hmore.tokens, hmore.solid, hmore.nodes⟩ hk hif ?_
  rw [hmake] at hx ⊢
  refine ofChain_snoc ⟨hc, hy'.rule, fun p hmem => ⟨(hp p hmem).1.rule, (hp p hmem).2.rule⟩, hops⟩ ?_
    ho.is.rule hu.is.rule (by rw [op.string_tree, op.ofSymbol?_symbol]) hx hy
  rw [children, parts, nodes_append, nodes_solid, nodes_cons_of_rule ho.is.rule,
    nodes_cons_of_rule hu.is.rule, nodes_nil]
  rfl

theorem left {op : BinaryOp} (hop : 2 ≤ op.tier) (hl : DrawnAt op.tier l vs)
    (hr : DrawnAt (op.tier + 1) r ws) :
    DrawnAt op.tier (.binary op l r) (vs ++ op.symbol.toList :: ws) := by
  have htier : op.tier = 2 ∨ op.tier = 3 ∨ op.tier = 4 := by
    revert hop
    cases op <;> decide
  rcases htier with h | h | h
  · have hrule : opRule op.tier = .logicOp := by rw [h]; rfl
    rw [h] at hl hr ⊢
    exact snoc rfl rfl (by decide) hrule (fun t => by rw [ofTier, ofLogical]; rfl) hl hr
  · have hrule : opRule op.tier = .addOp := by rw [h]; rfl
    rw [h] at hl hr ⊢
    exact snoc rfl rfl (by decide) hrule (fun t => by rw [ofTier, ofAdditive]; rfl) hl hr
  · have hrule : opRule op.tier = .mulOp := by rw [h]; rfl
    rw [h] at hl hr ⊢
    exact snoc rfl rfl (by decide) hrule (fun t => by rw [ofTier, ofMultiplicative]; rfl) hl hr

/-- An operator between operands. -/
theorem binary {op : BinaryOp} (hl : DrawnAt op.leftTier l vs) (hr : DrawnAt (op.tier + 1) r ws) :
    DrawnAt op.tier (.binary op l r) (vs ++ op.symbol.toList :: ws) := by
  by_cases hop : op.tier < 2
  · rw [BinaryOp.leftTier, if_pos hop] at hl
    exact pair hop hl hr
  · rw [BinaryOp.leftTier, if_neg hop] at hl
    exact left (Nat.le_of_not_lt hop) hl hr

/-- An operator before an operand. -/
theorem unary {op : UnaryOp} (h : DrawnAt op.tier e ws) :
    DrawnAt op.tier (.unary op e) (op.symbol.toList :: ws) := by
  obtain ⟨t, ht, hv⟩ := h
  have ho := op.grown
  have hbody := ((Grows.call ho).item (Grows.call ht))
  have hc : ∀ r : Rule, (Tree.node r 0 0 [.node op.rule 0 0 [.token op.symbol.toList], t]).children =
      [.node op.rule 0 0 [.token op.symbol.toList], t] := fun r => by
    rw [children, parts, nodes_cons_of_rule ho.is.rule, nodes_cons_of_rule ht.is.rule, nodes_nil]
  have hsymbol : UnaryOp.ofSymbol? (Tree.node op.rule 0 0 [.token op.symbol.toList]).string =
      some op := by
    rw [Is.unaryOp op ho.is, op.ofSymbol?_symbol]
  cases op with
  | not =>
    have hv : ofNot t = .ok e := hv
    exact .node hbody.left rfl (by decide)
      ((ofNot_two rfl (hc _) ho.is.rule ht.is.rule hsymbol).trans (by rw [hv]; rfl))
  | neg =>
    have hv : ofNeg t = .ok e := hv
    exact .node hbody.left rfl (by decide)
      ((ofNeg_two rfl (hc _) ho.is.rule ht.is.rule hsymbol).trans (by rw [hv]; rfl))

end DrawnAt

end Expr

/-! ### Spellings -/

/-- Each token is a spelling of the piece at its place. -/
abbrev Spelled (ps : List Piece) (ws : List (List Char)) : Prop := List.Forall₂ Piece.Spells ps ws

namespace Spelled

variable {ps qs : List Piece} {ws : List (List Char)} {s : String} {w : List Char}

theorem append (h : Spelled (ps ++ qs) ws) :
    ∃ us vs, ws = us ++ vs ∧ Spelled ps us ∧ Spelled qs vs := by
  obtain ⟨us, vs, hu, hv, rfl⟩ := forall₂_append_left h
  exact ⟨us, vs, rfl, hu, hv⟩

theorem word (h : Spelled (.word w :: ps) ws) : ∃ vs, ws = w :: vs ∧ Spelled ps vs := by
  obtain ⟨v, vs, hv, hvs, rfl⟩ := List.forall₂_cons_left_iff.mp h
  exact ⟨vs, by rw [hv], hvs⟩

theorem mark (h : Spelled (.mark s :: ps) ws) : ∃ vs, ws = s.toList :: vs ∧ Spelled ps vs := h.word

theorem last (h : Spelled [.mark s] ws) : ws = [s.toList] := by
  obtain ⟨vs, rfl, hvs⟩ := h.mark
  rw [List.forall₂_nil_left_iff.mp hvs]

/-- Groups with commas between them. -/
theorem withCommas {groups : List (List Piece)} (h : Spelled (Piece.withCommas groups) ws) :
    ∃ wss, ws = commaTokens wss ∧ List.Forall₂ Spelled groups wss := by
  have hrest : ∀ {gs : List (List Piece)} {ws}, Spelled (gs.flatMap (Piece.mark "," :: ·)) ws →
      ∃ wss : List (List (List Char)), ws = wss.flatMap (",".toList :: ·) ∧
        List.Forall₂ Spelled gs wss := by
    intro gs
    induction gs with
    | nil =>
      intro ws h
      exact ⟨[], List.forall₂_nil_left_iff.mp h, .nil⟩
    | cons g gs ih =>
      intro ws h
      rw [List.flatMap_cons] at h
      obtain ⟨us, vs, rfl, hu, hv⟩ := append h
      obtain ⟨us, rfl, hus⟩ := mark hu
      obtain ⟨wss, rfl, hwss⟩ := ih hv
      exact ⟨us :: wss, rfl, .cons hus hwss⟩
  cases groups with
  | nil => exact ⟨[], List.forall₂_nil_left_iff.mp h, .nil⟩
  | cons g gs =>
    rw [Piece.withCommas, intercalate_cons] at h
    obtain ⟨us, vs, rfl, hu, hv⟩ := append h
    obtain ⟨wss, rfl, hwss⟩ := hrest hv
    exact ⟨us :: wss, by rw [commaTokens, intercalate_cons], .cons hu hwss⟩

end Spelled

/-! ### Numerals -/

theorem Token.isInteger_toDigits (n : Nat) : isInteger (Nat.toDigits 10 n) = true := by
  -- the first digit of a number other than zero is not zero
  have hhead : ∀ n, n ≠ 0 → (Nat.toDigits 10 n).head? ≠ some '0' := by
    intro n
    induction n using Nat.strongRecOn with
    | ind n ih =>
      intro hn
      by_cases hlt : n < 10
      · have hdigit : ∀ n < 10, n ≠ 0 → [n.digitChar].head? ≠ some '0' := by decide
        rw [Nat.toDigits_of_lt_base hlt]
        exact hdigit n hlt hn
      · rw [Nat.toDigits_of_base_le (by decide) (Nat.le_of_not_lt hlt),
          List.head?_append_of_ne_nil _ Nat.toDigits_ne_nil]
        exact ih (n / 10) (by omega) (by omega)
  by_cases hn : n = 0
  · subst hn
    rfl
  · have hdigits : ∀ c ∈ Nat.toDigits 10 n, c.isDigit = true := fun c hc =>
      Nat.isDigit_of_mem_toDigits (by decide) (by decide) hc
    cases hcs : Nat.toDigits 10 n with
    | nil => exact absurd hcs Nat.toDigits_ne_nil
    | cons c cs =>
      rw [hcs] at hdigits
      have hne : c ≠ '0' := by
        rintro rfl
        exact hhead n hn (by rw [hcs]; rfl)
      rw [isInteger, if_neg hne, hdigits c List.mem_cons_self, Bool.true_and, List.all_eq_true]
      intro d hd
      rw [isDigitChar, hdigits d (List.mem_cons_of_mem c hd)]
      rfl

/-- The token of a number. -/
theorem Tree.grown_numeral (n : Nat) : ∃ t, Grown .intLit t [Nat.toDigits 10 n] ∧ t.denoted = n := by
  refine ⟨_, .token (r := .intLit) (isInteger_toDigits n) (by decide), ?_⟩
  have htext : (Tree.node .intLit 0 0 [.token (Nat.toDigits 10 n)]).text = Nat.toDigits 10 n := by
    simp [Tree.text, textAll]
  rw [denoted, htext, Literal.withoutSeparators_eq fun c hc =>
    digit_ne (Nat.isDigit_of_mem_toDigits (by decide) (by decide) hc) rfl]
  exact Nat.ofDigitChars_toDigits (by decide) (by decide)

/-! ### Literals -/

namespace Expr

variable {e : Expr} {ws : List (List Char)}

/-- A literal as an operand. -/
theorem grown_literal {t : Tree} (ht : Grown .literal t ws) :
    ∃ u, Grown .primary u ws ∧ ofPrimary u = ofLiteral t := by
  have hc : (Tree.node .primary 0 0 [t]).children = [t] := nodes_cons_of_rule ht.is.rule []
  exact ⟨_, Grows.node (r := .primary) (Grows.call ht).left rfl (by decide),
    ofPrimary_eq hc ht.is.rule (by decide)⟩

theorem DrawnAt.literal (h : Drawn .literal ofLiteral e ws) : DrawnAt 7 e ws := by
  obtain ⟨t, ht, hv⟩ := h
  obtain ⟨u, hu, huv⟩ := grown_literal ht
  exact ⟨u, hu, huv.trans hv⟩

/-- The literal of an integer token. -/
theorem grown_integer {t : Tree} (ht : Grown .intLit t ws) :
    ∃ u, Grown .literal u ws ∧ ofLiteral u = .int <$> Literal.integer t := by
  have hc : (Tree.node .literal 0 0 [t]).children = [t] := nodes_cons_of_rule ht.is.rule []
  exact ⟨_, Grows.node (r := .literal) (Grows.call ht).left.right rfl (by decide),
    ofLiteral_eq hc ht.is.rule (by decide)⟩

theorem drawn_int {n : Nat} (hn : n < Number.signedLimit) :
    Drawn .literal ofLiteral (.int n) [Nat.toDigits 10 n] := by
  obtain ⟨t, ht, hv⟩ := grown_numeral n
  obtain ⟨u, hu, huv⟩ := grown_integer ht
  refine ⟨u, hu, ?_⟩
  rw [huv, Literal.integer_eq ht.is, hv, if_pos hn]
  rfl

theorem drawn_float {x : Number.Binary64} {w : List Char} (h : (Piece.float x).Spells w) :
    Drawn .literal ofLiteral (.float x) [w] := by
  obtain ⟨hw, hx⟩ := h
  have ht : Grown .floatLit (.node .floatLit 0 0 [.token w]) [w] := .token hw (by decide)
  have hc : (Tree.node .literal 0 0 [.node .floatLit 0 0 [.token w]]).children =
      [.node .floatLit 0 0 [.token w]] := rfl
  have htext : (Tree.node .floatLit 0 0 [.token w]).text = w := by simp [Tree.text, textAll]
  refine .node (Grows.call ht).left rfl (by decide) ?_
  rw [ofLiteral_eq hc ht.is.rule (by decide), Literal.float, htext, hx]
  rfl

theorem drawn_str {s : String} (h : isStringBody s.toList = true) :
    Drawn .literal ofLiteral (.str s) ['"' :: (s.toList ++ ['"'])] := by
  have ht := Grown.string h
  refine .node (Grows.call ht).left.right.right rfl (by decide) ?_
  rw [ofLiteral_eq rfl ht.is.rule (by decide), Literal.string_eq rfl rfl]
  simp [Tree.string, Tree.text, textAll]

theorem drawn_bool (b : Bool) :
    Drawn .literal ofLiteral (.bool b) [(if b then "true" else "false").toList] := by
  have hlit : Drawn .boolLit Literal.boolean b [(if b then "true" else "false").toList] := by
    cases b with
    | true =>
      have hk : Grown .kwTrue (.node .kwTrue 0 0 [.token "true".toList]) ["true".toList] :=
        Grows.node (r := .kwTrue) (.word _) rfl (by decide)
      exact .node (Grows.call hk).left rfl (by decide) (Literal.boolean_eq rfl rfl)
    | false =>
      have hk : Grown .kwFalse (.node .kwFalse 0 0 [.token "false".toList]) ["false".toList] :=
        Grows.node (r := .kwFalse) (.word _) rfl (by decide)
      exact .node (Grows.call hk).right rfl (by decide) (Literal.boolean_eq rfl rfl)
  obtain ⟨t, ht, hv⟩ := hlit
  have hc : (Tree.node .literal 0 0 [t]).children = [t] := nodes_cons_of_rule ht.is.rule []
  refine .node (Grows.call ht).right.right.right rfl (by decide) ?_
  rw [ofLiteral_eq hc ht.is.rule (by decide), hv]
  rfl

/-! ### Names, calls and cells -/

theorem grown_name {s : String} (h : isName s.toList = true) :
    ∃ t, Grown .identifier t [s.toList] ∧ t.string = s :=
  ⟨_, .token (r := .identifier) h (by decide), by simp [Tree.string, Tree.text, textAll]⟩

/-- A name as an operand. -/
theorem DrawnAt.name {t : Tree} (ht : Grown .identifier t ws) : DrawnAt 7 (.id t.string) ws := by
  have hc : (Tree.node .primary 0 0 [t]).children = [t] := nodes_cons_of_rule ht.is.rule []
  exact .node (Grows.call ht).left.right.right.right rfl (by decide)
    (ofPrimary_eq hc ht.is.rule (by decide))

theorem DrawnAt.id {s : String} (h : isName s.toList = true) : DrawnAt 7 (.id s) [s.toList] := by
  obtain ⟨t, ht, rfl⟩ := grown_name h
  exact .name ht

theorem drawn_arguments {es : List Expr} {wss : List (List (List Char))}
    (h : List.Forall₂ (DrawnAt 0) es wss) (hne : es ≠ []) :
    Drawn .arguments ofArguments es (commaTokens wss) := by
  obtain ⟨ts, hts, hm⟩ := Drawn.all h
  have hm : ts.mapM ofTree = .ok es := hm
  have hrules := Grown.rules hts
  have hne' : ts ≠ [] := by
    rintro rfl
    exact hne (List.forall₂_nil_right_iff.mp (List.forall₂_nil_left_iff.mp hts ▸ h))
  refine .node (Grows.commaList hts hne') rfl (by decide) ?_
  have hc : (Tree.node .arguments 0 0 (separated ts)).children = ts := nodes_separated hrules
  rw [ofArguments_eq (by rwa [hc]), hc, hm]

/-- Arguments that may be missing. -/
theorem drawn_argumentsOf {es : List Expr} {wss : List (List (List Char))}
    (h : List.Forall₂ (DrawnAt 0) es wss) : ∃ a : Option Tree,
      Grows (.opt (.call .arguments)) a.toList (commaTokens wss) ∧
        (∀ x ∈ a, x.rule? = some .arguments) ∧ argumentsOf a = .ok es := by
  cases es with
  | nil =>
    obtain rfl := List.forall₂_nil_left_iff.mp h
    exact ⟨none, .without, by simp, rfl⟩
  | cons e es =>
    obtain ⟨t, ht, hv⟩ := drawn_arguments h (List.cons_ne_nil e es)
    exact ⟨some t, (Grows.call ht).within, by simpa using ht.is.rule, hv⟩

theorem drawn_cell {s : String} {es : List Expr} {wss : List (List (List Char))}
    (hs : isName s.toList = true) (h : List.Forall₂ (DrawnAt 0) es wss) (hne : es ≠ []) :
    Drawn .arrayCell ofCell (s, es)
      (s.toList :: "[".toList :: (commaTokens wss ++ ["]".toList])) := by
  obtain ⟨n, hn, hstring⟩ := grown_name hs
  obtain ⟨a, ha, hv⟩ := drawn_arguments h hne
  have hbody : Grows Rule.arrayCell.body [n, .token "[".toList, a, .token "]".toList]
      (s.toList :: "[".toList :: (commaTokens wss ++ ["]".toList])) :=
    (Grows.call hn).item ((Grows.text _).item ((Grows.call ha).item (Grows.text _)))
  have hc : (Tree.node .arrayCell 0 0 [n, .token "[".toList, a, .token "]".toList]).children =
      [n, a] := by
    rw [children, parts, nodes_cons_of_rule hn.is.rule, nodes_cons_token,
      nodes_cons_of_rule ha.is.rule]
    rfl
  refine .node hbody rfl (by decide) ?_
  rw [ofCell_eq hc hn.is.rule ha.is.rule, hv, hstring]
  exact if_neg (by simpa using hne)

theorem drawn_call {s : String} {es : List Expr} {wss : List (List (List Char))}
    (hs : isName s.toList = true) (h : List.Forall₂ (DrawnAt 0) es wss) :
    Drawn .funcCall ofCall (s, es)
      (s.toList :: "(".toList :: (commaTokens wss ++ [")".toList])) := by
  obtain ⟨n, hn, hstring⟩ := grown_name hs
  obtain ⟨a, ha, hrule, hv⟩ := drawn_argumentsOf h
  have hbody : Grows Rule.funcCall.body (n :: .token "(".toList :: (a.toList ++ [.token ")".toList]))
      (s.toList :: "(".toList :: (commaTokens wss ++ [")".toList])) :=
    (Grows.call hn).item ((Grows.text _).item (ha.seq (Grows.text _)))
  have hc : (Tree.node .funcCall 0 0
      (n :: .token "(".toList :: (a.toList ++ [.token ")".toList]))).children = n :: a.toList := by
    rw [children, parts, nodes_cons_of_rule hn.is.rule, nodes_cons_token, nodes_append,
      nodes_of_rule fun t ht => hrule t (Option.mem_toList.mp ht)]
    simp
  refine .node hbody rfl (by decide) ?_
  rw [ofCall_eq hc hn.is.rule hrule, hv, hstring]
  rfl

theorem drawn_array {es : List Expr} {wss : List (List (List Char))}
    (h : List.Forall₂ (DrawnAt 0) es wss) :
    Drawn .arrayLit ofArray es ("\x7b".toList :: (commaTokens wss ++ ["\x7d".toList])) := by
  obtain ⟨a, ha, hrule, hv⟩ := drawn_argumentsOf h
  have hbody : Grows Rule.arrayLit.body (.token "\x7b".toList :: (a.toList ++ [.token "\x7d".toList]))
      ("\x7b".toList :: (commaTokens wss ++ ["\x7d".toList])) :=
    (Grows.text _).item (ha.seq (Grows.text _))
  have hc : (Tree.node .arrayLit 0 0
      (.token "\x7b".toList :: (a.toList ++ [.token "\x7d".toList]))).children = a.toList := by
    rw [children, parts, nodes_cons_token, nodes_append,
      nodes_of_rule fun t ht => hrule t (Option.mem_toList.mp ht)]
    simp
  refine .node hbody rfl (by decide) ?_
  rw [ofArray_eq hc hrule, hv]

theorem DrawnAt.cell {s : String} {es : List Expr} (h : Drawn .arrayCell ofCell (s, es) ws) :
    DrawnAt 7 (.cell s es) ws := by
  obtain ⟨t, ht, hv⟩ := h
  have hc : (Tree.node .primary 0 0 [t]).children = [t] := nodes_cons_of_rule ht.is.rule []
  refine .node (Grows.call ht).left.right rfl (by decide) ?_
  exact (ofPrimary_eq hc ht.is.rule (by decide)).trans (by rw [hv]; rfl)

theorem DrawnAt.call {s : String} {es : List Expr} (h : Drawn .funcCall ofCall (s, es) ws) :
    DrawnAt 7 (.call s es) ws := by
  obtain ⟨t, ht, hv⟩ := h
  have hc : (Tree.node .primary 0 0 [t]).children = [t] := nodes_cons_of_rule ht.is.rule []
  refine .node (Grows.call ht).left.right.right rfl (by decide) ?_
  exact (ofPrimary_eq hc ht.is.rule (by decide)).trans (by rw [hv]; rfl)

theorem DrawnAt.array {es : List Expr} (h : Drawn .arrayLit ofArray es ws) :
    DrawnAt 7 (.array es) ws := by
  obtain ⟨t, ht, hv⟩ := h
  have hc : (Tree.node .primary 0 0 [t]).children = [t] := nodes_cons_of_rule ht.is.rule []
  refine .node (Grows.call ht).right.right.right.right.right rfl (by decide) ?_
  exact (ofPrimary_eq hc ht.is.rule (by decide)).trans (by rw [hv]; rfl)

/-! ### Printed expressions -/

/-- What is printed in parentheses can stand at any tier, and what is not at its own. -/
theorem drawnAt_parenthesized {j k : Nat} {ps : List Piece} (hj : j ≤ 6) (hk : k ≤ 7)
    (hs : Spelled (Piece.parenthesized (j < k) ps) ws)
    (h : ∀ vs, Spelled ps vs → DrawnAt j e vs) : DrawnAt k e ws := by
  by_cases hjk : j < k
  · rw [Piece.parenthesized, if_pos (decide_eq_true hjk)] at hs
    obtain ⟨vs, rfl, h₁⟩ := hs.mark
    obtain ⟨us, vs, rfl, hu, hv⟩ := h₁.append
    rw [hv.last]
    exact ((h us hu).loosen (Nat.zero_le j) (by omega)).parenthesized.loosen hk (Nat.le_refl 7)
  · rw [Piece.parenthesized, if_neg (by simpa using hjk)] at hs
    exact (h ws hs).loosen (Nat.le_of_not_lt hjk) (by omega)

mutual

/-- **What is printed of a well-formed expression is drawn**, at the tier it was printed for. -/
theorem drawnAt : ∀ (e : Expr) {k : Nat} {ws : List (List Char)}, e.isWellFormed = true → k ≤ 7 →
    Spelled (e.pieces k) ws → DrawnAt k e ws
  | .id s, k, ws, he, hk, hs => by
    obtain ⟨vs, rfl, h₁⟩ := Spelled.word hs
    obtain rfl := List.forall₂_nil_left_iff.mp h₁
    exact (DrawnAt.id he).loosen hk (Nat.le_refl 7)
  | .int n, k, ws, he, hk, hs => by
    obtain ⟨vs, rfl, h₁⟩ := Spelled.word hs
    obtain rfl := List.forall₂_nil_left_iff.mp h₁
    simp only [isWellFormed, Bool.and_eq_true, decide_eq_true_eq] at he
    have hn : ((n.toNat : Nat) : Int) = n := Int.toNat_of_nonneg he.1
    have hdrawn := DrawnAt.literal (drawn_int (n := n.toNat) (by omega))
    rw [hn] at hdrawn
    exact hdrawn.loosen hk (Nat.le_refl 7)
  | .float x, k, ws, _, hk, hs => by
    obtain ⟨w, vs, hw, hvs, rfl⟩ := List.forall₂_cons_left_iff.mp hs
    obtain rfl := List.forall₂_nil_left_iff.mp hvs
    exact (DrawnAt.literal (drawn_float hw)).loosen hk (Nat.le_refl 7)
  | .str s, k, ws, he, hk, hs => by
    obtain ⟨vs, rfl, h₁⟩ := Spelled.word hs
    obtain rfl := List.forall₂_nil_left_iff.mp h₁
    exact (DrawnAt.literal (drawn_str he)).loosen hk (Nat.le_refl 7)
  | .bool b, k, ws, _, hk, hs => by
    rw [Spelled.last hs]
    exact (DrawnAt.literal (drawn_bool b)).loosen hk (Nat.le_refl 7)
  | .array es, k, ws, he, hk, hs => by
    obtain ⟨vs, rfl, h₁⟩ := Spelled.mark hs
    obtain ⟨us, vs, rfl, hu, hv⟩ := Spelled.append h₁
    obtain ⟨wss, rfl, hwss⟩ := hu.withCommas
    rw [hv.last]
    exact (DrawnAt.array (drawn_array (drawnAll es he hwss))).loosen hk (Nat.le_refl 7)
  | .cell s es, k, ws, he, hk, hs => by
    simp only [isWellFormed, Bool.and_eq_true, Bool.not_eq_true', List.isEmpty_eq_false_iff] at he
    obtain ⟨vs, rfl, h₁⟩ := Spelled.word hs
    obtain ⟨vs, rfl, h₂⟩ := Spelled.mark h₁
    obtain ⟨us, vs, rfl, hu, hv⟩ := Spelled.append h₂
    obtain ⟨wss, rfl, hwss⟩ := hu.withCommas
    rw [hv.last]
    exact (DrawnAt.cell (drawn_cell he.1.1 (drawnAll es he.2 hwss) he.1.2)).loosen hk (Nat.le_refl 7)
  | .call s es, k, ws, he, hk, hs => by
    simp only [isWellFormed, Bool.and_eq_true] at he
    obtain ⟨vs, rfl, h₁⟩ := Spelled.word hs
    obtain ⟨vs, rfl, h₂⟩ := Spelled.mark h₁
    obtain ⟨us, vs, rfl, hu, hv⟩ := Spelled.append h₂
    obtain ⟨wss, rfl, hwss⟩ := hu.withCommas
    rw [hv.last]
    exact (DrawnAt.call (drawn_call he.1 (drawnAll es he.2 hwss))).loosen hk (Nat.le_refl 7)
  | .binary op l r, k, ws, he, hk, hs => by
    simp only [isWellFormed, Bool.and_eq_true] at he
    have htier : op.tier ≤ 4 ∧ op.leftTier ≤ 4 := by cases op <;> decide
    refine drawnAt_parenthesized (by omega) hk hs fun vs h₁ => ?_
    obtain ⟨us, vs, rfl, hu, hv⟩ := Spelled.append h₁
    obtain ⟨vs, rfl, h₂⟩ := Spelled.mark hv
    exact .binary (drawnAt l he.1 (by omega) hu) (drawnAt r he.2 (by omega) h₂)
  | .unary op e, k, ws, he, hk, hs => by
    have htier : op.tier ≤ 6 := by cases op <;> decide
    refine drawnAt_parenthesized htier hk hs fun vs h₁ => ?_
    obtain ⟨vs, rfl, h₂⟩ := Spelled.mark h₁
    exact .unary (drawnAt e he (by omega) h₂)

theorem drawnAll : ∀ (es : List Expr) {wss : List (List (List Char))}, allWellFormed es = true →
    List.Forall₂ Spelled (piecesAll es) wss → List.Forall₂ (DrawnAt 0) es wss
  | [], wss, _, hs => by
    rw [List.forall₂_nil_left_iff.mp hs]
    exact .nil
  | e :: es, wss, he, hs => by
    simp only [allWellFormed, Bool.and_eq_true] at he
    obtain ⟨ws, wss, hw, hws, rfl⟩ := List.forall₂_cons_left_iff.mp hs
    exact .cons (drawnAt e he.1 (by omega) hw) (drawnAll es he.2 hws)

end

end Expr

end Mt22
