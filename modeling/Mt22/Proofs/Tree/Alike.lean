import Mathlib.Data.List.Forall2
import Mt22.Proofs.Tree.Conforms

/-!
# Trees that look alike

Two trees look alike if they differ only in trivia and in offsets: they have the same rules in the
same places, and the same texts where the text of a node matters.
-/

namespace Mt22

/-- A rule whose nodes are read by their text. -/
def Rule.isTextual (r : Rule) : Bool :=
  [identifier, intLit, floatLit, strBody, concatOp, relOp, logicOp, addOp, mulOp, notOp,
    negOp].contains r

namespace Tree

/-- The trees have the same rules, and the same texts where texts are read. -/
inductive Alike : Tree → Tree → Prop
  | mk {t u : Tree} (rule : t.rule? = u.rule?)
      (text : (t.rule?.any Rule.isTextual) = true → t.text = u.text)
      (children : List.Forall₂ Alike t.children u.children) : Alike t u

namespace Alike

variable {t u : Tree}

theorem rule (h : Alike t u) : t.rule? = u.rule? := by
  cases h; assumption

theorem text (h : Alike t u) (ht : (t.rule?.any Rule.isTextual) = true) : t.text = u.text := by
  cases h with
  | mk _ htext _ => exact htext ht

theorem children (h : Alike t u) : List.Forall₂ Alike t.children u.children := by
  cases h; assumption

end Alike

/-! ### Tokens -/

@[simp] theorem tokensAll_nil : tokensAll [] = [] := rfl

@[simp] theorem tokensAll_cons (t : Tree) (ts : List Tree) :
    tokensAll (t :: ts) = t.tokens ++ tokensAll ts := rfl

@[simp] theorem tokensAll_append (ts us : List Tree) :
    tokensAll (ts ++ us) = tokensAll ts ++ tokensAll us := by
  induction ts with
  | nil => rfl
  | cons t ts ih => simp [ih]

@[simp] theorem tokens_token (s : List Char) : (token s).tokens = [s] := rfl

@[simp] theorem tokens_trivia (s : List Char) : (trivia s).tokens = [] := rfl

theorem tokens_strLit (a b : Nat) (ps : List Tree) :
    (node .strLit a b ps).tokens = [textAll ps] := rfl

theorem tokens_node {r : Rule} (hr : r ≠ .strLit) (a b : Nat) (ps : List Tree) :
    (node r a b ps).tokens = tokensAll ps := by
  cases r <;> first | rfl | exact absurd rfl hr

theorem tokensAll_solid (ts : List Tree) : tokensAll (solid ts) = tokensAll ts := by
  induction ts with
  | nil => rfl
  | cons t ts ih =>
    cases t with
    | token s => rw [solid_cons_token, tokensAll_cons, ih, tokensAll_cons]
    | node r a b ps => rw [solid_cons_node, tokensAll_cons, ih, tokensAll_cons]
    | trivia s =>
      rw [tokensAll_cons, tokens_trivia, List.nil_append, ← ih]
      rfl

end Tree

end Mt22
