import Mt22.Proofs.Parsing.Spell
import Mt22.Proofs.Tree.Grow

/-!
# How far a rule reads

`Rule.Consumes r s rest` says that the rule reads some tree at the start of `s` and leaves `rest`.
Unlike completeness it asks nothing of what follows, so it also tells where a reading stops that does
not reach the end of a declaration.

* `Tree.Grown.consumes`: tokens that are laid out are read to their end, given what follows.
* `Rule.Consumes.single`, `Rule.Consumes.pair`, `Rule.Consumes.alone`: an operand, and an operator
  between two of them.
* `Rule.Consumes.expression`: where no operator follows an operand, it is the whole expression.
* `consumes_zero_value`: of digits that start with a zero only the zero is read.
-/

namespace Mt22

open Mt22.Tree Mt22.Token Mt22.Trivia Mt22.Peg

/-- Some tree of the rule is read, up to the rest. -/
def Rule.Consumes (r : Rule) (s rest : List Char) : Prop :=
  ∃ t ws, Grown r t ws ∧ Reads (.call r) [t] s rest

theorem Tree.Grown.consumes {r : Rule} {t : Tree} {ws : List (List Char)} {s rest : List Char}
    (h : Grown r t ws) (hl : Lays ws s rest) (hh : headOf (after rest) ∈ r.follow)
    (helse : .ofElse ∉ r.follow) : r.Consumes (after s) rest := by
  refine ⟨t, ws, h, (h.is.conforms.complete h.nearest).reads h.is.rule (h.tokens ▸ hl) hh ?_⟩
  intro _ heq
  exact helse (heq ▸ hh)

/-- The heads of the operators between operands. -/
def operatorHeads : List Head :=
  Rule.concatOp.first ++ Rule.relOp.first ++ Rule.logicOp.first ++ Rule.addOp.first ++
    Rule.mulOp.first

namespace Rule.Consumes

variable {r operand o : Rule} {a e : Peg} {ts : List Tree} {ws : List (List Char)}
  {s s' mid rest : List Char}

/-- What the body of a rule reads. -/
theorem of_body (hk : r.kind = .plain) (hr : r ≠ .ifStmt) (hg : Grows r.body ts ws)
    (h : Reads r.body ts s rest) : r.Consumes s rest := by
  have hnode := hg.node hk hr
  refine ⟨_, _, hnode, .call hnode.is hk ?_⟩
  rwa [parts, hg.solid]

/-- A rule is read only where a head of it stands. -/
theorem head (h : r.Consumes (after s) rest) (hr : (Peg.call r).isHeaded = true) :
    headOf (after s) ∈ r.first := by
  obtain ⟨t, ws, -, hreads⟩ := h
  obtain ⟨us, o', s', hends, -⟩ := hreads 0
  exact Decidable.byContradiction fun hnot =>
    absurd (hends.unique (refuses_of_head hr (piece?_after s) hnot 0)) (by simp)

/-- An operand after which nothing more is read. -/
theorem alone (hb : r.body = .seq (.call operand) e) (hk : r.kind = .plain) (hr : r ≠ .ifStmt)
    (h : operand.Consumes (after s) rest) (he : Grows e [] []) (hno : Reads e [] (after rest) rest) :
    r.Consumes (after s) rest := by
  obtain ⟨t, ws, ht, hreads⟩ := h
  refine of_body hk hr (hb ▸ (Grows.call ht).item he) ?_
  rw [hb]
  exact hreads.seq hno

/-- An operand without an operator after it. -/
theorem single (hb : r.body = .seq (.call operand) (.opt (.seq (.call o) (.call operand))))
    (hk : r.kind = .plain) (hr : r ≠ .ifStmt) (h : operand.Consumes (after s) rest)
    (hno : Refuses (.call o) (after rest)) : r.Consumes (after s) rest :=
  alone hb hk hr h .without (.without hno.seq rfl)

/-- An operand without an operator after it, where there could be many. -/
theorem first_only (hb : r.body = .seq (.call operand) (.star (.seq (.call o) (.call operand))))
    (hk : r.kind = .plain) (hr : r ≠ .ifStmt) (h : operand.Consumes (after s) rest)
    (hno : Refuses (.call o) (after rest)) : r.Consumes (after s) rest :=
  alone hb hk hr h .nil (.star_nil hno.seq rfl)

/-- An operand without a sign before it. -/
theorem unsigned (hb : r.body = .choice a (.call operand)) (hk : r.kind = .plain) (hr : r ≠ .ifStmt)
    (ha : Refuses a (after s)) (h : operand.Consumes (after s) rest) : r.Consumes (after s) rest := by
  obtain ⟨t, ws, ht, hreads⟩ := h
  refine of_body hk hr (hb ▸ (Grows.call ht).right) ?_
  rw [hb]
  exact .right ha hreads

/-- An operator between two operands. -/
theorem pair (hb : r.body = .seq (.call operand) (.opt (.seq (.call o) (.call operand))))
    (hk : r.kind = .plain) (hr : r ≠ .ifStmt) (h : operand.Consumes (after s) mid)
    (ho : o.Consumes (after mid) s') (h' : operand.Consumes (after s') rest) :
    r.Consumes (after s) rest := by
  obtain ⟨t, ws, ht, hreads⟩ := h
  obtain ⟨x, xs, hx, hxreads⟩ := ho
  obtain ⟨u, us, hu, hureads⟩ := h'
  refine of_body hk hr (hb ▸ (Grows.call ht).item ((Grows.call hx).item (Grows.call hu)).within) ?_
  rw [hb]
  exact hreads.seq (hxreads.seq hureads).within

/-- **Where no operator follows an operand, it is the whole expression.** -/
theorem expression (h : Rule.primary.Consumes (after s) rest)
    (hh : headOf (after rest) ∉ operatorHeads) : Rule.expression.Consumes (after s) rest := by
  have hsign : ∀ x ∈ Rule.primary.first, x ∉ Rule.notOp.first ∧ x ∉ Rule.negOp.first := by decide
  have hheaded : ∀ r ∈ [Rule.notOp, .negOp, .concatOp, .relOp, .logicOp, .addOp, .mulOp],
      (Peg.call r).isHeaded = true := by decide
  have hop : ∀ r ∈ [Rule.concatOp, .relOp, .logicOp, .addOp, .mulOp],
      r ∈ [Rule.notOp, .negOp, .concatOp, .relOp, .logicOp, .addOp, .mulOp] ∧
      ∀ x ∈ r.first, x ∈ operatorHeads := by decide
  obtain ⟨hnot, hneg⟩ := hsign _ (h.head (by decide))
  have hno : ∀ r ∈ [Rule.concatOp, .relOp, .logicOp, .addOp, .mulOp],
      Refuses (.call r) (after rest) := fun r hr =>
    refuses_of_head (hheaded r (hop r hr).1) (piece?_after rest) fun hx => hh ((hop r hr).2 _ hx)
  have hnegExpr : Rule.negExpr.Consumes (after s) rest :=
    unsigned rfl rfl (by decide)
      (refuses_of_head (hheaded .negOp (by decide)) (piece?_after s) hneg).seq h
  have hnotExpr : Rule.notExpr.Consumes (after s) rest :=
    unsigned rfl rfl (by decide)
      (refuses_of_head (hheaded .notOp (by decide)) (piece?_after s) hnot).seq hnegExpr
  have hmul : Rule.multiplicative.Consumes (after s) rest :=
    first_only rfl rfl (by decide) hnotExpr (hno .mulOp (by decide))
  have hadd : Rule.additive.Consumes (after s) rest :=
    first_only rfl rfl (by decide) hmul (hno .addOp (by decide))
  have hlogical : Rule.logical.Consumes (after s) rest :=
    first_only rfl rfl (by decide) hadd (hno .logicOp (by decide))
  have hrel : Rule.relational.Consumes (after s) rest :=
    single rfl rfl (by decide) hlogical (hno .relOp (by decide))
  exact single rfl rfl (by decide) hrel (hno .concatOp (by decide))

end Rule.Consumes

/-! ### A zero and what follows it -/

/-- A character of a word stands where it is, with no trivia before it, and is no mark. -/
theorem headOf_wordChar {c : Char} (hc : isWordChar c = true) (z : List Char) :
    after (c :: z) = c :: z ∧ ∀ d, headOf (c :: z) ≠ .mark d := by
  have hspace : isSpace c = false := by
    cases hs : isSpace c with
    | false => rfl
    | true => rw [not_isWordChar_of_isSpace hs] at hc; cases hc
  refine ⟨after_of_piece?_none (piece?_cons_eq_none hspace ?_ z), fun d => ?_⟩
  · rintro rfl
    cases hc
  · rcases isWordStart_or_isDigit hc with h | h
    · rw [headOf, if_pos h]
      split <;> simp
    · rw [headOf_digit h]
      simp

/-- Only the zero is read as an integer. -/
theorem consumes_zero (z : List Char) : Rule.intLit.Consumes (after ('0' :: z)) z := by
  have hz : after ('0' :: z) = ['0'] ++ z := (headOf_wordChar rfl z).1
  have ht : Grown .intLit (.node .intLit 0 0 [.token ['0']]) [['0']] := .token rfl (by decide)
  rw [hz]
  exact ⟨_, _, ht, .token rfl 0 0 (takes_text ['0'] z).choice rfl⟩

/-- Only the zero is read as a value as well, if a digit or a separator follows it. -/
theorem consumes_zero_value {c : Char} (hc : isDigitChar c = true) (z : List Char) :
    Rule.expression.Consumes (after ('0' :: c :: z)) (c :: z) := by
  obtain ⟨hafter, hmark⟩ := headOf_wordChar (isWordChar_of_isDigitChar hc) z
  have hzero : after ('0' :: c :: z) = '0' :: c :: z :=
    (headOf_wordChar (c := '0') rfl (c :: z)).1
  have hne : ∀ d : Char, isDigitChar d = false → c ≠ d := by
    rintro d hd rfl
    rw [hc] at hd
    cases hd
  have hfloat : Refuses (.call .floatLit) (after ('0' :: c :: z)) := by
    rw [hzero]
    have hexp : Stops (fun c => c = 'e' || c = 'E') (c :: z) :=
      stops_cons (by simp [hne 'e' rfl, hne 'E' rfl])
    have hlacks := lacks_float_of_takes (w := ['0']) rfl (takes_text ['0'] (c :: z)).choice
      (lacks_fraction (stops_cons (by simp [hne '.' rfl]))) (lacks_exponent hexp)
    exact fun o => .call_none (hlacks o)
  obtain ⟨t, ws, ht, hread⟩ := consumes_zero (c :: z)
  have hliteral : Rule.literal.Consumes (after ('0' :: c :: z)) (c :: z) :=
    .of_body rfl (by decide) (Grows.call ht).left.right (.right hfloat hread.left)
  obtain ⟨t, ws, ht, hread⟩ := hliteral
  have hprimary : Rule.primary.Consumes (after ('0' :: c :: z)) (c :: z) :=
    .of_body rfl (by decide) (Grows.call ht).left hread.left
  have hoperators : operatorHeads.all (· matches .mark _) = true := by decide
  refine hprimary.expression fun hmem => ?_
  have hoperator := List.all_eq_true.mp hoperators _ hmem
  rw [hafter] at hoperator
  cases hhead : headOf (c :: z) with
  | mark d => exact hmark d hhead
  | finish | word | name | digit => rw [hhead] at hoperator; cases hoperator

end Mt22
