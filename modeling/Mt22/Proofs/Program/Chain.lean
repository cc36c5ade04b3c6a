import Mathlib.Logic.Function.Iterate
import Mt22.Proofs.Parsing.Derives
import Mt22.Proofs.Program.Draw

/-!
# Operator chains

Operands with operators between them, such as `a + b * c < d`.  A chain is grouped by splitting it at
the operators of the loosest tier, grouping the parts by the tighter ones, and putting the operators
of the tier back to the left (`Chain.grouped`).  The two loosest tiers do not associate, so that a
chain must be regular: it has one `::` at most, and one relational operator at most on each side of it
(`Chain.isRegular`).

What holds of operands and is kept by operators holds of the grouped chain (`Tiered.expression`).
This is used for what expressions are made of (`Expr.DrawnAt.tiered`), and for the tokens that the
grammar derives, whatever is made of them (`Peg.Derives.tiered`).
-/

namespace Mt22

open Mt22.Tree Mt22.Peg

/-- Operands with operators between them. -/
structure Chain (α : Type) where
  first : α
  rest : List (BinaryOp × α)

namespace Chain

variable {α β : Type}

def ops (c : Chain α) : List BinaryOp := c.rest.map Prod.fst

def operands (c : Chain α) : List α := c.first :: c.rest.map Prod.snd

def map (g : α → β) (c : Chain α) : Chain β := ⟨g c.first, c.rest.map fun p => (p.1, g p.2)⟩

/-- An operand and an operator before a chain. -/
def cons (x : α) (op : BinaryOp) (c : Chain α) : Chain α := ⟨x, (op, c.first) :: c.rest⟩

/-- The parts of a chain between the operators of a tier. -/
def splitFrom (k : Nat) : α → List (BinaryOp × α) → Chain (Chain α)
  | x, [] => ⟨⟨x, []⟩, []⟩
  | x, (op, y) :: rest =>
    let d := splitFrom k y rest
    if op.tier = k then d.cons ⟨x, []⟩ op else ⟨d.first.cons x op, d.rest⟩

@[inherit_doc splitFrom]
def split (k : Nat) (c : Chain α) : Chain (Chain α) := splitFrom k c.first c.rest

/-- The operators are applied one after the other, from the left. -/
def folded (c : Chain Expr) : Expr := c.rest.foldl (fun l p => .binary p.1 l p.2) c.first

/-- The chain is split at the operators of the first tier, and its parts by the other tiers. -/
def grouped (value : α → Expr) : List Nat → Chain α → Expr
  | [], c => value c.first
  | k :: ks, c => ((c.split k).map (grouped value ks)).folded

/-- The expression that a chain stands for. -/
def toExpr (value : α → Expr) (c : Chain α) : Expr := c.grouped value [0, 1, 2, 3, 4]

/-- The tokens of a chain. -/
def words (w : α → List (List Char)) (c : Chain α) : List (List Char) :=
  w c.first ++ c.rest.flatMap fun p => p.1.symbol.toList :: w p.2

/-- At most one operator is `::`, and at most one on each side of it is relational. -/
def isRegular (c : Chain α) : Bool :=
  c.ops.count .concat ≤ 1 &&
    (c.ops.splitOn .concat).all fun side => side.countP (·.tier = 1) ≤ 1

/-! ### Parts of a chain -/

theorem words_cons (w : α → List (List Char)) (x : α) (op : BinaryOp) (c : Chain α) :
    (c.cons x op).words w = w x ++ op.symbol.toList :: c.words w := by
  simp [words, cons]

theorem words_split (w : α → List (List Char)) (k : Nat) (c : Chain α) :
    (c.split k).words (words w) = c.words w := by
  obtain ⟨x, rest⟩ := c
  induction rest generalizing x with
  | nil => simp [split, splitFrom, words]
  | cons p rest ih =>
    obtain ⟨op, y⟩ := p
    have ih := ih y
    simp only [split, splitFrom] at ih ⊢
    split
    · rw [words_cons, ih]
      simp [words]
    · rw [words] at ih ⊢
      rw [words_cons, List.append_assoc, List.cons_append, ih]
      simp [words]

/-- The operators at which a chain is split. -/
theorem tier_of_mem_split {k : Nat} {c : Chain α} : ∀ op ∈ (c.split k).ops, op.tier = k := by
  obtain ⟨x, rest⟩ := c
  induction rest generalizing x with
  | nil => simp [split, splitFrom, ops]
  | cons p rest ih =>
    obtain ⟨op, y⟩ := p
    have ih := ih y
    simp only [split, splitFrom] at ih ⊢
    split
    · next h =>
      intro o ho
      rcases List.mem_cons.mp ho with rfl | ho
      · exact h
      · exact ih o ho
    · exact ih

/-- A part of a chain has the operators of other tiers, and operands of the chain. -/
theorem of_mem_split {k : Nat} {c p : Chain α} (h : p ∈ (c.split k).operands) :
    (∀ op ∈ p.ops, op ∈ c.ops ∧ op.tier ≠ k) ∧ ∀ x ∈ p.operands, x ∈ c.operands := by
  obtain ⟨x, rest⟩ := c
  induction rest generalizing x p with
  | nil =>
    obtain rfl : p = ⟨x, []⟩ := List.mem_singleton.mp h
    simp [ops, operands]
  | cons q rest ih =>
    obtain ⟨op, y⟩ := q
    have hmem : ∀ o, o ∈ ops ⟨y, rest⟩ → o ∈ ops ⟨x, (op, y) :: rest⟩ :=
      fun o ho => List.mem_cons_of_mem _ ho
    have hmem' : ∀ z, z ∈ operands ⟨y, rest⟩ → z ∈ operands ⟨x, (op, y) :: rest⟩ :=
      fun z hz => List.mem_cons_of_mem _ hz
    have later : ∀ {q : Chain α}, q ∈ (split k ⟨y, rest⟩).operands →
        (∀ o ∈ q.ops, o ∈ ops ⟨x, (op, y) :: rest⟩ ∧ o.tier ≠ k) ∧
          ∀ z ∈ q.operands, z ∈ operands ⟨x, (op, y) :: rest⟩ := by
      intro q hq
      obtain ⟨ho, hz⟩ := ih y hq
      exact ⟨fun o h => ⟨hmem o (ho o h).1, (ho o h).2⟩, fun z h => hmem' z (hz z h)⟩
    simp only [split, splitFrom] at h
    split at h
    · rcases List.mem_cons.mp h with rfl | h
      · simp [cons, ops, operands]
      · exact later h
    · next hne =>
      rcases List.mem_cons.mp h with rfl | h
      · obtain ⟨ho, hz⟩ := later (q := (split k ⟨y, rest⟩).first) List.mem_cons_self
        constructor
        · intro o h
          rcases List.mem_cons.mp h with rfl | h
          · exact ⟨List.mem_cons_self, hne⟩
          · exact ho o h
        · intro z h
          rcases List.mem_cons.mp h with rfl | h
          · exact List.mem_cons_self
          · exact hz z h
      · exact later (List.mem_cons_of_mem _ h)

theorem length_split (k : Nat) (c : Chain α) :
    (c.split k).rest.length = c.ops.countP (·.tier = k) := by
  obtain ⟨x, rest⟩ := c
  induction rest generalizing x with
  | nil => rfl
  | cons p rest ih =>
    obtain ⟨op, y⟩ := p
    have ih := ih y
    simp only [split, splitFrom, ops, List.map_cons, List.countP_cons, decide_eq_true_eq] at ih ⊢
    split
    · simpa [cons] using ih
    · simpa using ih

theorem splitOn_ops (c : Chain α) :
    (c.split 0).operands.map ops = c.ops.splitOn .concat := by
  obtain ⟨x, rest⟩ := c
  induction rest generalizing x with
  | nil => rfl
  | cons p rest ih =>
    obtain ⟨op, y⟩ := p
    have ih := ih y
    have htier : op.tier = 0 ↔ op = .concat := by cases op <;> decide
    simp only [split, splitFrom, ops, List.map_cons, List.splitOn] at ih ⊢
    rw [List.splitOnP_cons_eq_if_modifyHead, ← ih]
    by_cases h : op.tier = 0
    · rw [if_pos h, if_pos (by simpa using htier.mp h)]
      rfl
    · rw [if_neg h, if_neg (by simpa using fun hc => h (htier.mpr hc))]
      rfl

/-- A chain is regular if it is split in two at most by `::`, and so are its parts by relational
operators. -/
theorem isRegular_iff {c : Chain α} : c.isRegular = true ↔
    (c.split 0).rest.length ≤ 1 ∧ ∀ p ∈ (c.split 0).operands, (p.split 1).rest.length ≤ 1 := by
  have hconcat : c.ops.count .concat = (c.split 0).rest.length := by
    rw [length_split, List.count]
    refine List.countP_congr fun op _ => ?_
    cases op <;> decide
  rw [isRegular, Bool.and_eq_true, decide_eq_true_eq, hconcat, ← splitOn_ops]
  simp [length_split]

end Chain

/-! ### What operators keep -/

/-- What is said of expressions at tiers, and of their tokens, is kept by the operators. -/
structure Tiered (D : Nat → Expr → List (List Char) → Prop) : Prop where
  step : ∀ {k : Nat} {e : Expr} {ws : List (List Char)}, k < 7 → D (k + 1) e ws → D k e ws
  binary : ∀ {op : BinaryOp} {l r : Expr} {vs ws : List (List Char)}, D op.leftTier l vs →
    D (op.tier + 1) r ws → D op.tier (.binary op l r) (vs ++ op.symbol.toList :: ws)
  unary : ∀ {op : UnaryOp} {e : Expr} {ws : List (List Char)}, D op.tier e ws →
    D op.tier (.unary op e) (op.symbol.toList :: ws)

namespace Tiered

variable {D : Nat → Expr → List (List Char) → Prop} {α : Type} {w : α → List (List Char)}

/-- An operator that stands before an operand many times. -/
theorem iterate (hD : Tiered D) (op : UnaryOp) (n : Nat) {e : Expr} {ws : List (List Char)}
    (h : D op.tier e ws) :
    D op.tier ((Expr.unary op)^[n] e) (List.replicate n op.symbol.toList ++ ws) := by
  induction n with
  | zero => exact h
  | succ n ih =>
    rw [Function.iterate_succ_apply', List.replicate_succ]
    exact hD.unary ih

/-- Operators of a tier that associates, one after the other. -/
theorem foldl (hD : Tiered D) {value : α → Expr} {k : Nat} (hk : 2 ≤ k) {rest : List (BinaryOp × Chain α)}
    {ks : List Nat} {e : Expr} {vs : List (List Char)} (he : D k e vs)
    (h : ∀ p ∈ rest, p.1.tier = k ∧ D (k + 1) (p.2.grouped value ks) (p.2.words w)) :
    D k ((rest.map fun p => (p.1, p.2.grouped value ks)).foldl (fun l p => .binary p.1 l p.2) e)
      (vs ++ rest.flatMap fun p => p.1.symbol.toList :: p.2.words w) := by
  induction rest generalizing e vs with
  | nil => simpa using he
  | cons p rest ih =>
    obtain ⟨op, q⟩ := p
    obtain ⟨rfl, hq⟩ := h (op, q) List.mem_cons_self
    have hleft : op.leftTier = op.tier := if_neg (Nat.not_lt.mpr hk)
    have hbinary := hD.binary (hleft.symm ▸ he) hq
    have := ih hbinary fun p hp => h p (List.mem_cons_of_mem _ hp)
    simpa using this

/-- A chain whose parts are settled, at the tier at which it is split. -/
theorem split (hD : Tiered D) {value : α → Expr} {k : Nat} {ks : List Nat} {c : Chain α}
    (hk : k < 5) (hone : k < 2 → (c.split k).rest.length ≤ 1)
    (h : ∀ p ∈ (c.split k).operands, D (k + 1) (p.grouped value ks) (p.words w)) :
    D k (c.grouped value (k :: ks)) (c.words w) := by
  have htier := Chain.tier_of_mem_split (k := k) (c := c)
  rw [← Chain.words_split w k, Chain.grouped]
  generalize c.split k = d at hone h htier
  obtain ⟨p, rest⟩ := d
  have hfirst := h p List.mem_cons_self
  have hrest : ∀ q ∈ rest, q.1.tier = k ∧ D (k + 1) (q.2.grouped value ks) (q.2.words w) :=
    fun q hq => ⟨htier q.1 (List.mem_map_of_mem hq),
      h q.2 (List.mem_cons_of_mem _ (List.mem_map_of_mem hq))⟩
  by_cases hk2 : k < 2
  · -- one operator at most, whose operands are both of the next tier
    have hlen : rest.length ≤ 1 := hone hk2
    cases rest with
    | nil =>
      show D k (p.grouped value ks) (p.words w ++ [])
      rw [List.append_nil]
      exact hD.step (by omega) hfirst
    | cons q rest =>
      obtain ⟨op, q⟩ := q
      obtain rfl : rest = [] := List.length_eq_zero_iff.mp (Nat.le_zero.mp (Nat.le_of_succ_le_succ hlen))
      obtain ⟨rfl, hq⟩ := hrest (op, q) List.mem_cons_self
      have hleft : op.leftTier = op.tier + 1 := if_pos hk2
      show D op.tier (.binary op (p.grouped value ks) (q.grouped value ks))
        (p.words w ++ (op.symbol.toList :: q.words w ++ []))
      rw [List.append_nil]
      exact hD.binary (hleft.symm ▸ hfirst) hq
  · exact hD.foldl (Nat.le_of_not_lt hk2) (hD.step (by omega) hfirst) hrest

/-- A chain of operators that associate. -/
theorem chain (hD : Tiered D) (value : α → Expr) (n : Nat) {k : Nat} (hk : k + n = 5) (hk2 : 2 ≤ k)
    {c : Chain α} (hops : ∀ op ∈ c.ops, k ≤ op.tier) (hx : ∀ x ∈ c.operands, D 5 (value x) (w x)) :
    D k (c.grouped value (List.range' k n)) (c.words w) := by
  induction n generalizing k c with
  | zero =>
    obtain ⟨x, rest⟩ := c
    cases rest with
    | nil =>
      obtain rfl : k = 5 := hk
      show D 5 (value x) (w x ++ [])
      rw [List.append_nil]
      exact hx x List.mem_cons_self
    | cons p rest =>
      have htier : p.1.tier ≤ 4 := by cases p.1 <;> decide
      have := hops p.1 List.mem_cons_self
      omega
  | succ n ih =>
    refine hD.split (by omega) (by omega) fun p hp => ?_
    obtain ⟨ho, hz⟩ := Chain.of_mem_split hp
    refine ih (by omega) (by omega) (fun op hop => ?_) fun x hxp => hx x (hz x hxp)
    have := hops op (ho op hop).1
    have := (ho op hop).2
    omega

/-- **What operators keep holds of a regular chain**, if it holds of its operands. -/
theorem expression (hD : Tiered D) (value : α → Expr) {c : Chain α} (hc : c.isRegular = true)
    (hx : ∀ x ∈ c.operands, D 5 (value x) (w x)) : D 0 (c.toExpr value) (c.words w) := by
  obtain ⟨hconcat, hrelational⟩ := Chain.isRegular_iff.mp hc
  refine hD.split (by omega) (fun _ => hconcat) fun p hp => ?_
  obtain ⟨hop, hz⟩ := Chain.of_mem_split hp
  refine hD.split (by omega) (fun _ => hrelational p hp) fun q hq => ?_
  obtain ⟨hoq, hzq⟩ := Chain.of_mem_split hq
  refine hD.chain value 3 rfl (Nat.le_refl 2) (fun op h => ?_) fun x h => hx x (hz x (hzq x h))
  have := (hop op (hoq op h).1).2
  have := (hoq op h).2
  omega

end Tiered

theorem Expr.DrawnAt.tiered : Tiered Expr.DrawnAt :=
  ⟨fun hk h => h.step hk, Expr.DrawnAt.binary, Expr.DrawnAt.unary⟩

/-! ### Derivations -/

namespace Peg.Derives

theorem body {r : Rule} {ws : List (List Char)} (h : (Peg.call r).Derives ws)
    (hk : r.kind = .plain) : r.body.Derives ws := by
  cases h with
  | token _ ha => rw [kind_of_allows ha] at hk; cases hk
  | string => cases hk
  | rule _ h => exact h

theorem star_append {a : Peg} {vs ws : List (List Char)} (hv : (Peg.star a).Derives vs)
    (hw : (Peg.star a).Derives ws) : (Peg.star a).Derives (vs ++ ws) := by
  generalize he : Peg.star a = e at hv
  induction hv with
  | nil =>
    cases he
    exact hw
  | cons ha _ _ ih =>
    cases he
    rw [List.append_assoc]
    exact .cons ha (ih rfl)
  | _ => cases he

theorem seq_iff {a b : Peg} {ws : List (List Char)} : (Peg.seq a b).Derives ws ↔
    ∃ us vs, ws = us ++ vs ∧ a.Derives us ∧ b.Derives vs := by
  constructor
  · intro h
    cases h with
    | seq ha hb => exact ⟨_, _, rfl, ha, hb⟩
  · rintro ⟨us, vs, rfl, ha, hb⟩
    exact .seq ha hb

/-- A tier with operators to the left takes one operator more. -/
theorem snoc {r operand o : Rule} {op : BinaryOp} {vs ws : List (List Char)} (hk : r.kind = .plain)
    (hb : r.body = .seq (.call operand) (.star (.seq (.call o) (.call operand))))
    (hop : (Peg.call o).Derives [op.symbol.toList]) (hv : (Peg.call r).Derives vs)
    (hw : (Peg.call operand).Derives ws) : (Peg.call r).Derives (vs ++ op.symbol.toList :: ws) := by
  have hbody := hv.body hk
  rw [hb] at hbody
  obtain ⟨us, xs, rfl, hu, hx⟩ := seq_iff.mp hbody
  refine .rule hk ?_
  rw [hb, List.append_assoc]
  refine .seq hu (hx.star_append ?_)
  have := (hop.seq hw).cons (.nil (a := .seq (.call o) (.call operand)))
  rwa [List.append_nil] at this

/-- Which tokens are derived does not depend on what is made of them. -/
theorem tiered : Tiered fun k _ ws => (Peg.call (Expr.tierRule k)).Derives ws := by
  refine ⟨?_, ?_, ?_⟩
  · intro k e ws hk h
    have hone : ∀ {a : Peg}, a.Derives [] → (Peg.seq (.call (Expr.tierRule (k + 1))) a).Derives ws := by
      intro a ha
      have := h.seq ha
      rwa [List.append_nil] at this
    have hcases : k = 0 ∨ k = 1 ∨ k = 2 ∨ k = 3 ∨ k = 4 ∨ k = 5 ∨ k = 6 := by omega
    rcases hcases with rfl | rfl | rfl | rfl | rfl | rfl | rfl
    · exact .rule rfl (hone .without)
    · exact .rule rfl (hone .without)
    · exact .rule rfl (hone .nil)
    · exact .rule rfl (hone .nil)
    · exact .rule rfl (hone .nil)
    · exact .rule rfl (.right h)
    · exact .rule rfl (.right h)
  · intro op l r vs ws hl hr
    have hop : (Peg.call (opRule op.tier)).Derives [op.symbol.toList] :=
      op.grown.tokens ▸ derives_of_conforms op.grown.is.conforms op.grown.is.rule
        (by cases op <;> decide)
    have hcases : op.tier = 0 ∨ op.tier = 1 ∨ op.tier = 2 ∨ op.tier = 3 ∨ op.tier = 4 := by
      cases op <;> decide
    rw [BinaryOp.leftTier] at hl
    generalize op.tier = k at hop hl hr hcases ⊢
    rcases hcases with rfl | rfl | rfl | rfl | rfl
    · exact .rule rfl (hl.seq (.within (hop.seq hr)))
    · exact .rule rfl (hl.seq (.within (hop.seq hr)))
    · exact snoc rfl rfl hop hl hr
    · exact snoc rfl rfl hop hl hr
    · exact snoc rfl rfl hop hl hr
  · intro op e ws h
    cases op with
    | not =>
      have hop : (Peg.call .notOp).Derives ["!".toList] := .rule rfl (.text _)
      exact .rule rfl (.left (hop.seq h))
    | neg =>
      have hop : (Peg.call .negOp).Derives ["-".toList] := .rule rfl (.text _)
      exact .rule rfl (.left (hop.seq h))

end Peg.Derives

end Mt22
