import Mathlib.Data.List.Chain
import Mt22.Proofs.Tree.FirstToken

/-!
# The leaves of a tree

The leaves of a tree are its tokens and the trivia between them, in order, a string literal being
one token.  They are the whole text of the tree (`Tree.textAll_leaves`).

Two tokens that stand side by side could be taken for something else: a `/` before a `*` would open
a comment.  The grammar never has the one follow the other (`Tree.Conforms.unslashed`).
-/

namespace Mt22

open Mt22.Tree

namespace Tree

mutual

/-- The tokens of a tree and the trivia between them.  A string literal is one token. -/
def leaves : Tree → List Tree
  | token s => [token s]
  | trivia s => [trivia s]
  | node .strLit _ _ parts => [token (textAll parts)]
  | node _ _ _ parts => leavesAll parts

/-- The leaves of a list of trees. -/
def leavesAll : List Tree → List Tree
  | [] => []
  | t :: ts => t.leaves ++ leavesAll ts

end

theorem leaves_node {r : Rule} (hr : r ≠ .strLit) (a b : Nat) (ps : List Tree) :
    (node r a b ps).leaves = leavesAll ps := by
  cases r <;> first | rfl | exact absurd rfl hr

theorem leavesAll_append (ts us : List Tree) :
    leavesAll (ts ++ us) = leavesAll ts ++ leavesAll us := by
  induction ts with
  | nil => rfl
  | cons t ts ih => rw [List.cons_append, leavesAll, leavesAll, ih, List.append_assoc]

mutual

theorem textAll_leaves : ∀ t : Tree, textAll t.leaves = t.text
  | token s => List.append_nil s
  | trivia s => List.append_nil s
  | node r a b ps => by
    by_cases hr : r = .strLit
    · subst hr
      exact List.append_nil _
    · rw [leaves_node hr, textAll_leavesAll, text]

theorem textAll_leavesAll : ∀ ts : List Tree, textAll (leavesAll ts) = textAll ts
  | [] => rfl
  | t :: ts => by rw [leavesAll, textAll_append, textAll_leaves, textAll_leavesAll, textAll]

end

mutual

theorem tokensAll_leaves : ∀ t : Tree, tokensAll t.leaves = t.tokens
  | token s => rfl
  | trivia s => rfl
  | node r a b ps => by
    by_cases hr : r = .strLit
    · subst hr
      rfl
    · rw [leaves_node hr, tokensAll_leavesAll, tokens_node hr]

theorem tokensAll_leavesAll : ∀ ts : List Tree, tokensAll (leavesAll ts) = tokensAll ts
  | [] => rfl
  | t :: ts => by rw [leavesAll, tokensAll_append, tokensAll_leaves, tokensAll_leavesAll,
      tokensAll_cons]

end

end Tree

/-! ### No comment is opened by two tokens -/

/-- No `/` is followed by a token that starts with `*`. -/
def Unslashed (ws : List (List Char)) : Prop :=
  ws.IsChain fun v w => v = ['/'] → w.head? ≠ some '*'

/-- What is known of the ends of a list of tokens in which no `/` is followed by `*`: whether it may
be empty, start with `*` or end with `/`. -/
structure Edges (ws : List (List Char)) (empty star slash : Bool) : Prop where
  unslashed : Unslashed ws
  empty : ws = [] → empty = true
  star : ∀ w, ws.head? = some w → w.head? = some '*' → star = true
  slash : ws.getLast? = some ['/'] → slash = true

namespace Edges

variable {vs ws : List (List Char)} {e e' s s' l l' : Bool}

theorem mono (h : Edges ws e s l) (he : e = true → e' = true) (hs : s = true → s' = true)
    (hl : l = true → l' = true) : Edges ws e' s' l' :=
  ⟨h.unslashed, he ∘ h.empty, fun w hw hw' => hs (h.star w hw hw'), hl ∘ h.slash⟩

theorem nil : Edges [] true s l := ⟨.nil, fun _ => rfl, by simp, by simp⟩

theorem append (hv : Edges vs e s l) (hw : Edges ws e' s' l') (h : (l && s') = false) :
    Edges (vs ++ ws) (e && e') (s || e && s') (l' || e' && l) := by
  refine ⟨?_, ?_, ?_, ?_⟩
  · refine List.isChain_append.mpr ⟨hv.unslashed, hw.unslashed, ?_⟩
    rintro v hlast w hhead rfl hstar
    rw [hv.slash hlast, hw.star w hhead hstar] at h
    cases h
  · intro hnil
    obtain ⟨hv', hw'⟩ := List.append_eq_nil_iff.mp hnil
    rw [hv.empty hv', hw.empty hw']
    rfl
  · intro w hhead hstar
    cases vs with
    | nil => rw [hv.empty rfl, hw.star w hhead hstar, Bool.true_and, Bool.or_true]
    | cons v vs => rw [hv.star w hhead hstar, Bool.true_or]
  · intro hlast
    cases ws with
    | nil =>
      rw [List.append_nil] at hlast
      rw [hw.empty rfl, hv.slash hlast, Bool.true_and, Bool.or_true]
    | cons w ws =>
      rw [List.getLast?_append_of_ne_nil _ (List.cons_ne_nil w ws)] at hlast
      rw [hw.slash hlast, Bool.true_or]

end Edges

namespace Peg

/-- What the expression reads may start with a `*`. -/
def startsStar : Peg → Bool
  | text s => s.head? = some '*'
  | call r => r = .mulOp
  | seq a b => a.startsStar || a.nullable && b.startsStar
  | choice a b => a.startsStar || b.startsStar
  | opt a | star a => a.startsStar
  | _ => false

/-- What the expression reads may end with a `/`. -/
def endsSlash : Peg → Bool
  | text s => s = ['/']
  | call r => r = .mulOp
  | seq a b => b.endsSlash || b.nullable && a.endsSlash
  | choice a b => a.endsSlash || b.endsSlash
  | opt a | star a => a.endsSlash
  | _ => false

/-- Nothing in the expression that may end with a `/` is followed by what may start with a `*`. -/
def isUnslashed : Peg → Bool
  | seq a b => a.isUnslashed && b.isUnslashed && !(a.endsSlash && b.startsStar)
  | choice a b => a.isUnslashed && b.isUnslashed
  | opt a => a.isUnslashed
  | star a => a.isUnslashed && !(a.endsSlash && a.startsStar)
  | _ => true

theorem Fits.edges {e : Peg} {ts : List Tree} (h : e.Fits ts) (hl : e.isLexical = true)
    (hu : e.isUnslashed = true)
    (hc : ∀ t ∈ ts, ∀ r, t.rule? = some r → r ≠ .strBody →
      Edges t.tokens r.nullable (r = .mulOp) (r = .mulOp)) :
    Edges (tokensAll ts) e.nullable e.startsStar e.endsSlash := by
  induction h with
  | text s =>
    refine ⟨.singleton s, by simp, ?_, ?_⟩
    · intro w hw hstar
      obtain rfl : s = w := by simpa using hw
      exact decide_eq_true hstar
    · intro hlast
      exact decide_eq_true (by simpa using hlast)
  | call hr =>
    rw [tokensAll_cons, tokensAll_nil, List.append_nil]
    exact hc _ (List.mem_singleton.mpr rfl) _ hr (of_decide_eq_true hl)
  | seq _ _ iha ihb =>
    obtain ⟨hla, hlb⟩ := Bool.and_eq_true_iff.mp hl
    simp only [isUnslashed, Bool.and_eq_true, Bool.not_eq_true'] at hu
    rw [tokensAll_append]
    exact (iha hla hu.1.1 fun t ht => hc t (List.mem_append_left _ ht)).append
      (ihb hlb hu.1.2 fun t ht => hc t (List.mem_append_right _ ht)) hu.2
  | left _ ih =>
    exact (ih (Bool.and_eq_true_iff.mp hl).1 (Bool.and_eq_true_iff.mp hu).1 hc).mono
      (by simp +contextual [nullable]) (by simp +contextual [startsStar])
      (by simp +contextual [endsSlash])
  | right _ ih =>
    exact (ih (Bool.and_eq_true_iff.mp hl).2 (Bool.and_eq_true_iff.mp hu).2 hc).mono
      (by simp +contextual [nullable]) (by simp +contextual [startsStar])
      (by simp +contextual [endsSlash])
  | within _ ih => exact (ih hl hu hc).mono (fun _ => rfl) id id
  | @cons a _ _ _ _ iha ihb =>
    have hu' : a.isUnslashed = true ∧ (a.endsSlash && a.startsStar) = false := by
      simpa only [isUnslashed, Bool.and_eq_true, Bool.not_eq_true'] using hu
    rw [tokensAll_append]
    refine ((iha hl hu'.1 fun t ht => hc t (List.mem_append_left _ ht)).append
      (ihb hl hu fun t ht => hc t (List.mem_append_right _ ht)) hu'.2).mono (fun _ => rfl) ?_ ?_
    · intro h
      simp only [startsStar, Bool.or_eq_true, Bool.and_eq_true] at h
      exact h.elim id And.right
    · intro h
      simp only [endsSlash, Bool.or_eq_true, Bool.and_eq_true] at h
      exact h.elim id And.right
  | more => cases hl
  | start | finish | without | nil | ahead => exact .nil

end Peg

/-- The bodies of rules keep `/` and `*` apart, and only an operator starts or ends with one. -/
theorem Rule.isUnslashed_body (r : Rule) (h : r.kind = .plain) : r.body.isUnslashed = true ∧
    (r.body.startsStar = true → r = .mulOp) ∧ (r.body.endsSlash = true → r = .mulOp) := by
  have hall : ∀ r ∈ Rule.all, r.kind = .plain → r.body.isUnslashed = true ∧
      (r.body.startsStar = true → r = .mulOp) ∧ (r.body.endsSlash = true → r = .mulOp) := by
    decide
  exact hall r r.mem_all h

namespace Tree

/-- A tree of one token that is neither `*` nor `/`. -/
theorem edges_singleton {w : List Char} (hs : headOf w ≠ .mark '*') (hl : headOf w ≠ .mark '/')
    (e s l : Bool) : Edges [w] e s l := by
  refine ⟨.singleton w, by simp, ?_, ?_⟩
  · intro v hv hstar
    obtain rfl : w = v := by simpa using hv
    cases w with
    | nil => cases hstar
    | cons c cs =>
      obtain rfl : c = '*' := by simpa using hstar
      exact absurd (headOf_mark rfl rfl cs) hs
  · intro hlast
    obtain rfl : w = ['/'] := by simpa using hlast
    exact absurd (headOf_mark rfl rfl []) hl

theorem Conforms.edges {t : Tree} (h : t.Conforms) : ∀ r, t.rule? = some r → r ≠ .strBody →
    Edges t.tokens r.nullable (r = .mulOp) (r = .mulOp) := by
  induction h with
  | @token r a b w ha =>
    intro r' hr hne
    obtain rfl := Option.some.inj hr
    have hlit : r ≠ .strLit := by
      rintro rfl
      exact ha
    have hhead := (isLexeme_of_allows ha hne).2
    rw [tokens_node hlit]
    refine edges_singleton ?_ ?_ _ _ _
    · intro heq
      rw [heq] at hhead
      cases r <;> first | exact False.elim ha | revert hhead; decide
    · intro heq
      rw [heq] at hhead
      cases r <;> first | exact False.elim ha | revert hhead; decide
  | @node r a b ps kind tight fits parts ih =>
    intro r' hr hne
    obtain rfl := Option.some.inj hr
    by_cases hs : r = .strLit
    · subst hs
      obtain ⟨b, -, htok, htext⟩ := (Is.of_conforms (Conforms.node kind tight fits parts)).strLit_tokens
      rw [htok, htext]
      exact edges_singleton (by rw [headOf_mark rfl rfl]; decide)
        (by rw [headOf_mark rfl rfl]; decide) _ _ _
    · have hkind : r.kind = .plain := by
        rcases kind with h | h
        · exact h
        · cases r <;> first | exact absurd rfl hs | cases h
      obtain ⟨hun, hstar, hslash⟩ := Rule.isUnslashed_body r hkind
      rw [tokens_node hs, ← tokensAll_solid]
      refine (fits.edges (Rule.isLexical_body r hkind) hun ?_).mono (Peg.nullable_body r) ?_ ?_
      · intro t ht r' hr'
        exact ih t (List.mem_filter.mp ht).1 (isNode_of_rule hr') r' hr'
      · exact fun h => decide_eq_true (hstar h)
      · exact fun h => decide_eq_true (hslash h)

/-- **In a conforming tree no `/` is followed by a `*`.** -/
theorem Is.unslashed {r : Rule} {t : Tree} (h : Is r t) (hr : r ≠ .strBody) : Unslashed t.tokens :=
  (h.conforms.edges r h.rule hr).unslashed

end Tree

end Mt22
