import Mt22.Proofs.Parsing.Operand
import Mt22.Proofs.Program.Chain
import Mt22.Proofs.Script.Contract
import Mt22.Proofs.Script.Variable

/-!
# Operator chains as initializers

A variable is given a chain of operators as its value, the operands of which are accepted on their
own.  The script is accepted exactly if the chain is regular, and the value is then the grouped chain
(`Script.program_of_chain`).

* A regular chain derives from the grammar, so it is accepted, and what is made of it is kept by the
  operators (`Tiered`).
* Of any other chain an expression reads a part only.  It stops before an operator, where neither the
  rest of a declaration nor another initializer can start (`Script.refuses_declaration`).
-/

namespace Mt22

open Mt22.Tree Mt22.Token Mt22.Trivia Mt22.Peg

/-- An operand: signs, and what they stand before, which is accepted on its own. -/
structure Operand where
  nots : Nat
  negs : Nat
  text : List Char
  tree : Tree
  accepted : Rule.primary.Accepts text tree

namespace Operand

/-- How the operand is written. -/
def source (t : Operand) : List Char :=
  List.replicate t.nots '!' ++ (List.replicate t.negs '-' ++ t.text)

/-- The tokens of the operand. -/
def words (t : Operand) : List (List Char) :=
  List.replicate t.nots "!".toList ++ (List.replicate t.negs "-".toList ++ t.tree.tokens)

/-- The signs applied to a value. -/
def signed (t : Operand) (e : Expr) : Expr :=
  (Expr.unary .not)^[t.nots] ((Expr.unary .neg)^[t.negs] e)

/-- What operators keep holds of the operand, if it holds of what its signs stand before. -/
theorem tiered {D : Nat → Expr → List (List Char) → Prop} (hD : Tiered D) {t : Operand} {e : Expr}
    (h : D 7 e t.tree.tokens) : D 5 (t.signed e) t.words :=
  hD.iterate .not t.nots (hD.step (by decide) (hD.iterate .neg t.negs (hD.step (by decide) h)))

theorem derives (t : Operand) : (Peg.call .notExpr).Derives t.words := by
  have hc := t.accepted.is rfl
  have h := derives_of_conforms hc.conforms hc.rule (by decide)
  exact tiered Derives.tiered (e := .bool true) h

theorem drawn {t : Operand} {e : Expr} (h : Expr.ofPrimary t.tree = .ok e) :
    Expr.DrawnAt 5 (t.signed e) t.words :=
  tiered Expr.DrawnAt.tiered ⟨t.tree, t.accepted.grown rfl, h⟩

/-- An operand has a value exactly if its numbers fit. -/
theorem representable_iff (t : Operand) :
    t.tree.Representable ↔ ∃ e, Expr.ofPrimary t.tree = .ok e := by
  have hc := t.accepted.is rfl
  have hx : Yields (Expr.ofPrimary t.tree) t.tree.faults := hc.conforms.ordered hc.rule
  rw [hx.blames.isOk_iff, Tree.representable_iff]
  exact forall_congr' fun f => not_congr (mem_faults t.tree).symm

/-! ### Layout -/

/-- A mark that is written many times is laid out as many tokens. -/
theorem lays_replicate {c : Char} (hc : isWordStart c = false) (hspace : isSpace c = false)
    (hslash : c ≠ '/') (n : Nat) {ws : List (List Char)} {s rest : List Char} (h : Lays ws s rest) :
    Lays (List.replicate n [c] ++ ws) (List.replicate n c ++ s) rest := by
  induction n with
  | zero => exact h
  | succ n ih =>
    refine ⟨List.replicate n c ++ s, ?_, ?_, ih⟩
    · exact after_of_piece?_none (piece?_cons_eq_none hspace hslash _)
    · intro hw
      rw [List.head?_cons, Option.any_some, hc] at hw
      cases hw

theorem lays_onto (t : Operand) {c : Char} (hc : endsToken c = true) (z : List Char) :
    Lays t.words (t.source ++ c :: z) (c :: z) := by
  have h := t.accepted.lays_onto rfl hc z
  have hneg := lays_replicate (c := '-') rfl rfl (by decide) t.negs h
  have hnot := lays_replicate (c := '!') rfl rfl (by decide) t.nots hneg
  rw [source, List.append_assoc, List.append_assoc]
  exact hnot

end Operand

namespace BinaryOp

theorem isLexeme_symbol (op : BinaryOp) : isLexeme op.symbol.toList = true := by
  cases op <;> decide

theorem headOf_symbol (op : BinaryOp) : headOf op.symbol.toList ∈ (opRule op.tier).first := by
  cases op <;> decide

end BinaryOp

namespace Chain

/-- How the chain is written, with single spaces around the operators. -/
def text (c : Chain Operand) : List Char :=
  c.first.source ++ c.rest.flatMap fun p => ' ' :: (p.1.symbol.toList ++ ' ' :: p.2.source)

/-- The tokens of a chain are laid out where it is written before a semicolon. -/
theorem lays_text (c : Chain Operand) (z : List Char) :
    Lays (c.words Operand.words) (c.text ++ ';' :: z) (';' :: z) := by
  obtain ⟨t, rest⟩ := c
  induction rest generalizing t with
  | nil =>
    rw [words, text, List.flatMap_nil, List.flatMap_nil, List.append_nil, List.append_nil]
    exact t.lays_onto rfl z
  | cons p rest ih =>
    obtain ⟨op, u⟩ := p
    have hrest := ih u
    have hsource : text ⟨t, (op, u) :: rest⟩ ++ ';' :: z =
        t.source ++ ' ' :: (op.symbol.toList ++ ' ' :: (text ⟨u, rest⟩ ++ ';' :: z)) := by
      simp [text]
    have hwords : words Operand.words ⟨t, (op, u) :: rest⟩ =
        t.words ++ op.symbol.toList :: words Operand.words ⟨u, rest⟩ := by
      simp [words]
    rw [hsource, hwords]
    refine lays_append.mpr ⟨_, t.lays_onto rfl _,
      ' ' :: (text ⟨u, rest⟩ ++ ';' :: z), ?_, bounded_space _ _, ?_⟩
    · rw [after_space]
      exact after_lexeme op.isLexeme_symbol (.inr ⟨_, rfl⟩)
    · exact lays_congr (after_space _).symm rfl hrest

end Chain

/-- The program that gives a variable this value. -/
def Program.ofValue (e : Expr) : Program := ⟨[.var ⟨"x", .auto, some e⟩]⟩

namespace Script

variable {name : String} {text : List Char} {ws : List (List Char)}

/-- The script that gives a variable this text as its value. -/
def ofInitializer (name : String) (text : List Char) : Script :=
  ofSource name (String.ofList ("x: auto = ".toList ++ (text ++ [';'])))

/-- The tokens before the value. -/
def headWords : List (List Char) := ["x", ":", "auto", "="].map String.toList

theorem lays_initializer (name : String) (h : Lays ws (text ++ [';']) [';']) :
    ∃ mid, Lays headWords (ofInitializer name text).source mid ∧ Lays ws mid [';'] := by
  have hsource : (ofInitializer name text).source = "x: auto = ".toList ++ (text ++ [';']) :=
    String.toList_ofList
  refine ⟨text ++ [';'], ?_, h⟩
  rw [hsource]
  exact lays_of_dropTokens (r := []) (by decide) _

/-- **A text in which the tokens of an expression are laid out is accepted as an initializer**, and
the value is what the expression is. -/
theorem outcome_of_expression (name : String) {u : Tree} (hu : Grown .expression u ws)
    (h : Lays ws (text ++ [';']) [';']) : (∃ t, (ofInitializer name text).parse = .ok t) ∧
      ∀ e, (ofInitializer name text).program = .ok (.ofValue e) ↔ Expr.ofTree u = .ok e := by
  obtain ⟨mid, hhead, hmid⟩ := lays_initializer name h
  obtain ⟨d, hd, hdv⟩ := VarDecl.grown isName_x Ty.drawn_auto hu
  have hlast : Lays [";".toList] [';'] [] := lays_of_dropTokens (s := [';']) (r := []) (by decide) []
  have hlays := lays_append.mpr ⟨mid, hhead, lays_append.mpr ⟨_, hmid, hlast⟩⟩
  obtain ⟨t, ht, -⟩ := outcome_of_variable hd hlays
  refine ⟨⟨t, ht⟩, fun e => ?_⟩
  cases hv : Expr.ofTree u with
  | ok v =>
    rw [program_of_variable hd hlays (hdv.trans (by rw [hv]; rfl))]
    show Except.ok (Program.ofValue v) = _ ↔ _
    simp [Program.ofValue]
  | error f =>
    obtain ⟨g, hg, -⟩ := fault_of_variable hd hlays (hdv.trans (by rw [hv]; rfl))
    simp [hg]

end Script

/-! ### How far an expression reads -/

/-- An operator is read where an operand follows it. -/
theorem BinaryOp.consumes (op : BinaryOp) {s rest : List Char} (h : Lays [op.symbol.toList] s rest)
    (hh : headOf (after rest) ∈ Rule.expression.first) : (opRule op.tier).Consumes (after s) rest := by
  have hfollow : (opRule op.tier).follow = .finish :: Rule.expression.first := by cases op <;> rfl
  refine op.grown.consumes h ?_ ?_
  · rw [hfollow]
    exact List.mem_cons_of_mem _ hh
  · rw [hfollow]
    decide

namespace Chain

/-- A chain of operators that associate is read as a whole. -/
theorem consumes_logical {c : Chain Operand} (hops : ∀ op ∈ c.ops, 2 ≤ op.tier) {s rest : List Char}
    (hl : Lays (c.words Operand.words) s rest) (hh : headOf (after rest) ∈ Rule.logical.follow) :
    Rule.logical.Consumes (after s) rest := by
  have hderives := Derives.tiered.chain (fun _ : Operand => .bool true) 3 rfl
    (Nat.le_refl 2) hops fun t _ => t.derives
  obtain ⟨t, ht, hn, htok⟩ := hderives.exists_tree
  exact Grown.consumes ⟨ht, hn, htok⟩ hl hh (by decide)

/-- The rest of a chain starts with an operator of the tier at which it was split. -/
theorem headOf_rest {k : Nat} {more : List (BinaryOp × Chain Operand)}
    {s rest : List Char} (hops : ∀ p ∈ more, p.1.tier = k)
    (hl : Lays (more.flatMap fun p => p.1.symbol.toList :: p.2.words Operand.words) s rest) :
    (more = [] ∧ after s = after rest) ∨ (more ≠ [] ∧ headOf (after s) ∈ (opRule k).first) := by
  cases more with
  | nil => exact .inl ⟨rfl, hl⟩
  | cons p more =>
    refine .inr ⟨by simp, ?_⟩
    rw [List.flatMap_cons, List.cons_append] at hl
    rw [hl.headOf_cons p.1.isLexeme_symbol, ← hops p List.mem_cons_self]
    exact p.1.headOf_symbol

/-- The rule reads a chain to its end if it is `Good`, and else it stops before one of the heads. -/
def ReadsTo (r : Rule) (stops : List Head) (Good : Prop) (s rest : List Char) : Prop :=
  ∃ mid, r.Consumes (after s) mid ∧ ((after mid = after rest ∧ Good) ∨ headOf (after mid) ∈ stops)

/-- A tier that does not associate: of a chain at most two parts are read, and of these the second
only if the first was read to its end. -/
theorem readsTo_split {k : Nat} {r operand : Rule} {stops : List Head} {Good : Chain Operand → Prop}
    (hb : r.body = .seq (.call operand) (.opt (.seq (.call (opRule k)) (.call operand))))
    (hk : r.kind = .plain) (hr : r ≠ .ifStmt)
    (hheaded : (Peg.call operand).isHeaded = true ∧ (Peg.call (opRule k)).isHeaded = true)
    (hfirst : ∀ x ∈ operand.first, x ∈ Rule.expression.first)
    (hfollow : ∀ x ∈ r.follow, x ∈ operand.follow ∧ x ∉ (opRule k).first)
    (hop : ∀ x ∈ (opRule k).first, x ∈ operand.follow) (hstops : ∀ x ∈ stops, x ∉ (opRule k).first)
    {c : Chain Operand}
    (hpart : ∀ p ∈ (c.split k).operands, ∀ s rest, Lays (p.words Operand.words) s rest →
      headOf (after rest) ∈ operand.follow → ReadsTo operand stops (Good p) s rest)
    {s rest : List Char} (hl : Lays (c.words Operand.words) s rest)
    (hh : headOf (after rest) ∈ r.follow) :
    ReadsTo r ((opRule k).first ++ stops)
      ((c.split k).rest.length ≤ 1 ∧ ∀ p ∈ (c.split k).operands, Good p) s rest := by
  have htier := tier_of_mem_split (k := k) (c := c)
  rw [← words_split Operand.words k] at hl
  generalize c.split k = d at hl hpart htier
  obtain ⟨p, more⟩ := d
  have htier : ∀ q ∈ more, q.1.tier = k := fun q hq => htier q.1 (List.mem_map_of_mem hq)
  -- the operator is refused before what stops an operand, and before what follows the chain
  have hno : ∀ {m : List Char}, headOf (after m) ∉ (opRule k).first →
      Refuses (.call (opRule k)) (after m) := fun h => refuses_of_head hheaded.2 (piece?_after _) h
  have hnext : ∀ {more : List (BinaryOp × Chain Operand)} {m : List Char},
      (∀ q ∈ more, q.1.tier = k) →
      Lays (more.flatMap fun q => q.1.symbol.toList :: q.2.words Operand.words) m rest →
      headOf (after m) ∈ operand.follow := by
    intro more m ht hm
    rcases headOf_rest ht hm with ⟨-, heq⟩ | ⟨-, hhead⟩
    · exact heq ▸ (hfollow _ hh).1
    · exact hop _ hhead
  obtain ⟨mid, hpl, hmore⟩ := lays_append.mp hl
  obtain ⟨m, hm, hend⟩ := hpart p List.mem_cons_self s mid hpl (hnext htier hmore)
  rcases hend with ⟨heq, hgood⟩ | hstop
  · cases more with
    | nil =>
      have hmid : after mid = after rest := hmore
      have heq := heq.trans hmid
      refine ⟨m, .single hb hk hr hm (hno (heq ▸ (hfollow _ hh).2)), .inl ⟨heq, by simp, ?_⟩⟩
      intro q hq
      exact List.mem_singleton.mp hq ▸ hgood
    | cons q more =>
      obtain ⟨op, q⟩ := q
      have hopk := htier (op, q) List.mem_cons_self
      have htier' : ∀ q ∈ more, q.1.tier = k := fun q hq => htier q (List.mem_cons_of_mem _ hq)
      obtain ⟨s', hs', hbound, hq⟩ := hmore
      obtain ⟨mid', hql, hmore⟩ := lays_append.mp hq
      have hmem : q ∈ operands ⟨p, (op, q) :: more⟩ := List.mem_cons_of_mem _ List.mem_cons_self
      obtain ⟨m', hm', hend'⟩ := hpart q hmem s' mid' hql (hnext htier' hmore)
      have hopreads : (opRule k).Consumes (after mid) s' :=
        hopk ▸ op.consumes ⟨s', hs', hbound, rfl⟩ (hfirst _ (hm'.head hheaded.1))
      refine ⟨m', .pair hb hk hr hm (heq ▸ hopreads) hm', ?_⟩
      rcases hend' with ⟨heq', hgood'⟩ | hstop
      · rcases headOf_rest htier' hmore with ⟨rfl, hlast⟩ | ⟨-, hhead⟩
        · refine .inl ⟨heq'.trans hlast, by simp, ?_⟩
          simp [operands, hgood, hgood']
        · exact .inr (List.mem_append_left _ (heq' ▸ hhead))
      · exact .inr (List.mem_append_right _ hstop)
  · exact ⟨m, .single hb hk hr hm (hno (hstops _ hstop)), .inr (List.mem_append_right _ hstop)⟩

/-- **An expression reads a chain to its end if it is regular**, and else it stops before an operator
that is relational or `::`. -/
theorem readsTo_expression {c : Chain Operand} {s rest : List Char}
    (hl : Lays (c.words Operand.words) s rest) (hh : headOf (after rest) ∈ Rule.expression.follow) :
    ReadsTo .expression (Rule.concatOp.first ++ Rule.relOp.first) (c.isRegular = true) s rest := by
  have hrelational : ∀ p ∈ (c.split 0).operands, ∀ s rest, Lays (p.words Operand.words) s rest →
      headOf (after rest) ∈ Rule.relational.follow → ReadsTo .relational (Rule.relOp.first ++ [])
        ((p.split 1).rest.length ≤ 1 ∧ ∀ q ∈ (p.split 1).operands, True) s rest := by
    intro p hp s rest hl hh
    refine readsTo_split (k := 1) rfl rfl (by decide) (by decide) (by decide) (by decide) (by decide)
      (by decide) ?_ hl hh
    intro q hq s rest hl hh
    refine ⟨rest, consumes_logical (fun op h => ?_) hl hh, .inl ⟨rfl, trivial⟩⟩
    have := ((of_mem_split hp).1 op ((of_mem_split hq).1 op h).1).2
    have := ((of_mem_split hq).1 op h).2
    omega
  obtain ⟨mid, hmid, hend⟩ := readsTo_split (k := 0) (r := .expression) rfl rfl (by decide)
    (by decide) (by decide) (by decide) (by decide) (by decide) hrelational hl hh
  refine ⟨mid, hmid, hend.imp_left fun ⟨heq, hgood⟩ => ⟨heq, isRegular_iff.mpr ?_⟩⟩
  exact ⟨hgood.1, fun p hp => (hgood.2 p hp).1⟩

end Chain

namespace Script

/-- No declaration is read where the expression after the equals sign stops before an operator. -/
theorem refuses_declaration {s m mid : List Char} (hl : Lays headWords s m)
    (he : Rule.expression.Consumes (after m) mid)
    (hh : headOf (after mid) ∈ Rule.concatOp.first ++ Rule.relOp.first) :
    Refuses (.call .declaration) (after s) := by
  have hstop : ∀ x ∈ Rule.concatOp.first ++ Rule.relOp.first, x ≠ .mark ',' ∧ x ≠ .mark ';' := by
    decide
  obtain ⟨hcomma, hsemicolon⟩ := hstop _ hh
  have hl : Lays (["x".toList, ":".toList] ++ ["auto".toList, "=".toList]) s m := hl
  obtain ⟨mid, hname, htype⟩ := lays_append.mp hl
  obtain ⟨y, hy, -⟩ := Ty.drawn_auto
  exact refuses_variable (by decide) hname (htype.headOf_cons (by decide) ▸ by decide)
    (refuses_value hy htype he hcomma hsemicolon)

/-- **A chain is accepted as an initializer exactly if it is regular.** -/
theorem accepts_chain_iff (name : String) (c : Chain Operand) :
    (∃ t, (ofInitializer name c.text).parse = .ok t) ↔ c.isRegular = true := by
  have hlays := c.lays_text []
  constructor
  · intro h
    obtain ⟨mid, hhead, hmid⟩ := lays_initializer name hlays
    obtain ⟨m, he, ⟨-, hregular⟩ | hstop⟩ := Chain.readsTo_expression hmid (by decide)
    · exact hregular
    · exact absurd h (not_accepted_of_refuses (refuses_declaration hhead he hstop))
  · intro hc
    have hderives := Derives.tiered.expression (fun _ : Operand => .bool true) hc
      fun t _ => t.derives
    obtain ⟨u, hu, hn, htok⟩ := hderives.exists_tree
    exact (outcome_of_expression name ⟨hu, hn, htok⟩ hlays).1

/-- The value of a regular chain. -/
theorem program_of_regular (name : String) {c : Chain Operand} (hc : c.isRegular = true)
    {value : Operand → Expr} (hv : ∀ t ∈ c.operands, Expr.ofPrimary t.tree = .ok (value t)) :
    (ofInitializer name c.text).program =
      .ok (.ofValue (c.toExpr fun t => t.signed (value t))) := by
  obtain ⟨u, hu, hvalue⟩ := Expr.DrawnAt.tiered.expression
    (fun t : Operand => t.signed (value t)) hc fun t ht => Operand.drawn (hv t ht)
  exact ((outcome_of_expression name hu (c.lays_text [])).2 _).mpr hvalue

/-- What stands in parentheses has the value of the operand. -/
theorem program_of_parenthesized (name : String) {t : Operand} {inside : List Char}
    (h : t.text = '(' :: (inside ++ [')'])) (e : Expr) :
    Expr.ofPrimary t.tree = .ok e ↔ (ofInitializer name inside).program = .ok (.ofValue e) := by
  have haccepted := t.accepted
  rw [h] at haccepted
  obtain ⟨u, hchildren, hu, hlays⟩ := haccepted.parenthesized (c := ';') rfl []
  have hgrown : Grown .expression u u.tokens := ⟨hu, hu.nearest rfl, rfl⟩
  rw [(outcome_of_expression name hgrown hlays).2 e,
    Expr.ofPrimary_eq hchildren hu.rule (by decide)]

/-- **Operator chains.**  A chain of operands is accepted as an initializer exactly if one operator at
most is `::` and one at most on each side of it is relational.  Its value is then, if its numbers fit,
the chain grouped by tiers, where an operand is its signs around what they stand before.  An operand
in parentheses is worth what stands in them. -/
theorem program_of_chain (name : String) (c : Chain Operand) :
    ((∃ t, (ofInitializer name c.text).parse = .ok t) ↔ c.isRegular = true) ∧
    (c.isRegular = true → (∀ t ∈ c.operands, t.tree.Representable) → ∃ value : Operand → Expr,
      (∀ t ∈ c.operands, Expr.ofPrimary t.tree = .ok (value t)) ∧
      (ofInitializer name c.text).program =
        .ok (.ofValue (c.toExpr fun t => t.signed (value t)))) ∧
    ∀ t ∈ c.operands, ∀ inside, t.text = '(' :: (inside ++ [')']) → ∀ e,
      (Expr.ofPrimary t.tree = .ok e ↔ (ofInitializer name inside).program = .ok (.ofValue e)) := by
  refine ⟨accepts_chain_iff name c, ?_, fun t _ inside h e => program_of_parenthesized name h e⟩
  intro hc hfits
  let value : Operand → Expr := fun t => (Expr.ofPrimary t.tree).toOption.getD (.bool true)
  have hvalue : ∀ t ∈ c.operands, Expr.ofPrimary t.tree = .ok (value t) := by
    intro t ht
    obtain ⟨e, he⟩ := t.representable_iff.mp (hfits t ht)
    show _ = Except.ok ((Expr.ofPrimary t.tree).toOption.getD (.bool true))
    rw [he]
    rfl
  exact ⟨value, hvalue, program_of_regular name hc hvalue⟩

/-- Signs, parentheses and operators of three tiers. -/
theorem program_of_chain_mixed : ∃ a b d : Operand,
    a.source = "!a".toList ∧ b.source = "-(b < 1)".toList ∧ b.text = "(b < 1)".toList ∧
    d.source = "2".toList ∧
    let c : Chain Operand := ⟨a, [(.add, b), (.concat, d), (.lt, a)]⟩
    c.isRegular = true ∧ (∀ t ∈ c.operands, t.tree.Representable) ∧
    (∃ t, (ofInitializer "a" c.text).parse = .ok t) ∧
    (∃ value : Operand → Expr, (∀ t ∈ c.operands, Expr.ofPrimary t.tree = .ok (value t)) ∧
      (ofInitializer "a" c.text).program =
        .ok (.ofValue (c.toExpr fun t => t.signed (value t)))) ∧
    ∀ e, (Expr.ofPrimary b.tree = .ok e ↔
      (ofInitializer "a" "b < 1".toList).program = .ok (.ofValue e)) := by
  have hread : ∀ w ∈ ["a", "(b < 1)", "2"], ((Rule.primary.read w.toList).toOption.any fun ts =>
      ts.any fun t => ts.length = 1 && t.text = w.toList && (Expr.ofPrimary t).isOk) = true := by
    decide +kernel
  have hoperand : ∀ (m n : Nat), ∀ w ∈ ["a", "(b < 1)", "2"], ∃ t : Operand,
      t.nots = m ∧ t.negs = n ∧ t.text = w.toList ∧ t.tree.Representable := by
    intro m n w hw
    have hread := hread w hw
    cases hr : Rule.primary.read w.toList with
    | error e => rw [hr] at hread; cases hread
    | ok ts =>
      rw [hr] at hread
      obtain ⟨t, ht, hread⟩ := List.any_eq_true.mp hread
      simp only [Bool.and_eq_true, decide_eq_true_eq] at hread
      obtain ⟨⟨hlen, htext⟩, hok⟩ := hread
      obtain ⟨u, rfl⟩ := List.length_eq_one_iff.mp hlen
      obtain rfl := List.mem_singleton.mp ht
      refine ⟨⟨m, n, w.toList, t, hr, htext⟩, rfl, rfl, rfl, (Operand.representable_iff _).mpr ?_⟩
      cases he : Expr.ofPrimary t with
      | ok e => exact ⟨e, rfl⟩
      | error f => rw [he] at hok; cases hok
  obtain ⟨a, ha₁, ha₂, ha₃, ha⟩ := hoperand 1 0 "a" (by decide)
  obtain ⟨b, hb₁, hb₂, hb₃, hb⟩ := hoperand 0 1 "(b < 1)" (by decide)
  obtain ⟨d, hd₁, hd₂, hd₃, hd⟩ := hoperand 0 0 "2" (by decide)
  have hfits : ∀ t ∈ [a, b, d, a], t.tree.Representable := by simp [ha, hb, hd]
  have hc : (⟨a, [(.add, b), (.concat, d), (.lt, a)]⟩ : Chain Operand).isRegular = true := rfl
  obtain ⟨haccepts, hvalue, hparens⟩ :=
    program_of_chain "a" ⟨a, [(.add, b), (.concat, d), (.lt, a)]⟩
  refine ⟨a, b, d, by simp [Operand.source, ha₁, ha₂, ha₃], by simp [Operand.source, hb₁, hb₂, hb₃],
    hb₃, by simp [Operand.source, hd₁, hd₂, hd₃], hc, hfits, haccepts.mpr hc, hvalue hc hfits, ?_⟩
  exact hparens b (by simp [Chain.operands]) _ (hb₃.trans (by decide))

end Script

end Mt22
