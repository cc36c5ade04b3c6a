import Mt22.Proofs.Token.Literal
import Mt22.Proofs.Tree.Conforms

/-!
# What is read conforms to the grammar

Ordered choice, greedy repetition and lookahead only ever take away readings that the grammar
allows as an ordinary one.  So the trees that a reading leaves fit the expression that was read,
and all of them conform (`fits_of_matches`).  This is a statement about the expressions that stand in
the bodies of rules which leave nodes, `Peg.isSyntax`; the bodies of tokens are settled by the
classes of tokens.
-/

namespace Mt22

open Mt22.Tree

/-- A rule that leaves a node whose text is of a class of tokens. -/
def Rule.isToken (r : Rule) : Bool := r = .identifier || r = .intLit || r = .floatLit || r = .strBody

/-- An expression made of marks, keywords, and rules that leave nodes. -/
def Peg.isSyntax : Peg → Bool
  | text _ | start | finish | ahead _ => true
  | one _ | absent _ => false
  | call r => r.kind = .plain || r.kind = .compound || r.isToken
  | seq a b | choice a b => a.isSyntax && b.isSyntax
  | opt a | star a | more a => a.isSyntax

theorem Rule.isSyntax_body (r : Rule) (h : r.kind = .plain ∨ r.kind = .compound) :
    r.body.isSyntax = true := by
  cases r <;> first | rfl | (rcases h with h | h <;> cases h)

namespace Mode

variable {m : Mode}

theorem solid_skip (m : Mode) (c : Cursor) : solid (m.skip c).1 = [] := by
  unfold skip
  split
  · dsimp only
    split <;> rfl
  · rfl

theorem not_isNode_skip {t : Tree} {c : Cursor} (h : t ∈ (m.skip c).1) : t.isNode = false := by
  have hs := solid_skip m c
  cases t with
  | node => exact absurd (List.mem_filter.mpr ⟨h, rfl⟩) (by rw [← solid, hs]; exact List.not_mem_nil)
  | token | trivia => rfl

theorem skip_of_not_spaced (h : m.spaced = false) (c : Cursor) : m.skip c = ([], c) := by
  simp [skip, h]

end Mode

/-- All nodes among the trees conform. -/
def Tree.AllConform (ts : List Tree) : Prop := ∀ t ∈ ts, t.isNode = true → t.Conforms

theorem Tree.allConform_append {ts us : List Tree} (h : AllConform ts) (h' : AllConform us) :
    AllConform (ts ++ us) := by
  intro t ht
  rcases List.mem_append.mp ht with ht | ht
  · exact h t ht
  · exact h' t ht

theorem Tree.allConform_nil : AllConform [] := by
  intro t ht
  cases ht

theorem Tree.allConform_singleton {t : Tree} (h : t.isNode = true → t.Conforms) :
    AllConform [t] := by
  intro u hu
  obtain rfl := List.mem_singleton.mp hu
  exact h

theorem Tree.allConform_skip (m : Mode) (c : Cursor) : AllConform (m.skip c).1 := by
  intro t ht hn
  rw [Mode.not_isNode_skip ht] at hn
  cases hn

theorem Rule.eq_strLit_of_compound {r : Rule} (h : r.kind = .compound) : r = .strLit := by
  cases r <;> first | rfl | cases h

/-! ### What rules leave -/

theorem Mode.leave_node {m : Mode} {r : Rule} (hm : m.nodes = true)
    (hk : r.kind = .plain ∨ r.kind = .compound) (c c' : Cursor) (parts : List Tree) :
    m.leave r c c' parts = [.node r c.offset c'.offset parts] := by
  rcases hk with hk | hk <;> simp [leave, hm, hk, Rule.Kind.isNamed]

theorem Mode.leave_token {m : Mode} {r : Rule} (hm : m.nodes = true) (hk : r.kind = .token)
    (c c' : Cursor) (parts : List Tree) :
    m.leave r c c' parts = [.node r c.offset c'.offset [.token (textAll parts)]] := by
  simp [leave, hm, hk, Rule.Kind.isNamed]

/-- What the body of a rule leaves makes a conforming node. -/
theorem Tree.conforms_of_parts {m : Mode} {r : Rule} {a b : Nat} {parts : List Tree}
    (hk : r.kind = .plain ∨ r.kind = .compound) (hf : r.body.Fits (solid parts))
    (hc : AllConform parts)
    (hs : (m.enter r.kind).spaced = false ∨ r.body.isSingle = true → solid parts = parts) :
    (Tree.node r a b parts).Conforms := by
  refine .node hk ?_ hf hc
  intro ht
  rw [Rule.isTight, Bool.or_eq_true, decide_eq_true_eq] at ht
  refine hs (ht.imp_left ?_)
  intro hcomp
  rw [hcomp]
  rfl

namespace Peg

/-- What is read of a token is of its class. -/
theorem allows_of_ends {r : Rule} (hr : r.isToken = true) {c c' : Cursor} {ts : List Tree}
    (h : Ends .tight r.body c (some (ts, c'))) : r.Allows (textAll ts) := by
  simp only [Rule.isToken, Bool.or_eq_true, decide_eq_true_eq] at hr
  rcases hr with ((rfl | rfl) | rfl) | rfl
  · exact Token.name_of_ends h
  · exact Token.integer_of_ends h
  · exact Token.float_of_ends h
  · exact Token.stringBody_of_ends h

theorem kind_of_isToken {r : Rule} (hr : r.isToken = true) : r.kind = .token := by
  simp only [Rule.isToken, Bool.or_eq_true, decide_eq_true_eq] at hr
  rcases hr with ((rfl | rfl) | rfl) | rfl <;> rfl

/-- **What is read fits.**  Where no trivia may stand, none is left. -/
theorem fits_of_matches {m : Mode} {e : Peg} {c c' : Cursor} {ts : List Tree}
    (h : Matches m e c ts c') (hm : m.nodes = true) (he : e.isSyntax = true) :
    e.Fits (solid ts) ∧ AllConform ts ∧ (m.spaced = false ∨ e.isSingle = true → solid ts = ts) := by
  induction h with
  | text => exact ⟨.text _, allConform_singleton (by rintro ⟨⟩), fun _ => rfl⟩
  | one | absent => cases he
  | start => exact ⟨.start, allConform_nil, fun _ => rfl⟩
  | finish => exact ⟨.finish, allConform_nil, fun _ => rfl⟩
  | @call m r c c' parts h ih =>
    simp only [isSyntax, Bool.or_eq_true, decide_eq_true_eq] at he
    rcases he with hk | ht
    · -- a node, whose parts are what the body left
      have henter : (m.enter r.kind).nodes = true := by
        rcases hk with hk | hk <;> rw [hk] <;> exact hm
      obtain ⟨hf, hc, hs⟩ := ih henter (Rule.isSyntax_body r hk)
      rw [Mode.leave_node hm hk]
      exact ⟨.call rfl, allConform_singleton fun _ => conforms_of_parts hk hf hc hs, fun _ => rfl⟩
    · have hk := kind_of_isToken ht
      rw [hk] at h
      rw [Mode.leave_token hm hk]
      exact ⟨.call rfl, allConform_singleton fun _ => .token (allows_of_ends ht h.ends), fun _ => rfl⟩
  | @seq m a b c ca c' ta tb _ _ iha ihb =>
    obtain ⟨hea, heb⟩ := Bool.and_eq_true_iff.mp he
    obtain ⟨hfa, hca, hsa⟩ := iha hm hea
    obtain ⟨hfb, hcb, hsb⟩ := ihb hm heb
    refine ⟨?_, allConform_append (allConform_append hca (allConform_skip m ca)) hcb, ?_⟩
    · simp only [solid_append, Mode.solid_skip, List.append_nil]
      exact .seq hfa hfb
    · intro hns
      have hns := hns.resolve_right (by simp [isSingle])
      simp [Mode.skip_of_not_spaced hns, hsa (.inl hns), hsb (.inl hns)]
  | left _ ih =>
    obtain ⟨hf, hc, hs⟩ := ih hm (Bool.and_eq_true_iff.mp he).1
    exact ⟨.left hf, hc, fun h => hs (h.imp_right fun h => (Bool.and_eq_true_iff.mp h).1)⟩
  | right _ _ ih =>
    obtain ⟨hf, hc, hs⟩ := ih hm (Bool.and_eq_true_iff.mp he).2
    exact ⟨.right hf, hc, fun h => hs (h.imp_right fun h => (Bool.and_eq_true_iff.mp h).2)⟩
  | within _ ih =>
    obtain ⟨hf, hc, hs⟩ := ih hm he
    exact ⟨.within hf, hc, fun h => hs (.inl (h.resolve_right (by simp [isSingle])))⟩
  | without => exact ⟨.without, allConform_nil, fun _ => rfl⟩
  | starNil => exact ⟨.nil, allConform_nil, fun _ => rfl⟩
  | starCons _ _ iha ihu =>
    obtain ⟨hfa, hca, hsa⟩ := iha hm he
    obtain ⟨hfu, hcu, hsu⟩ := ihu hm he
    refine ⟨?_, allConform_append hca hcu, ?_⟩
    · rw [solid_append]
      cases hfu with
      | more hfu => exact .cons hfa hfu
    · intro hns
      have hns := hns.resolve_right (by simp [isSingle])
      simp [hsa (.inl hns), hsu (.inl hns)]
  | moreNil => exact ⟨.more .nil, allConform_nil, fun _ => rfl⟩
  | @moreCons m a c ca c' ta us _ _ iha ihu =>
    obtain ⟨hfa, hca, hsa⟩ := iha hm he
    obtain ⟨hfu, hcu, hsu⟩ := ihu hm he
    refine ⟨?_, allConform_append (allConform_append (allConform_skip m c) hca) hcu, ?_⟩
    · simp only [solid_append, Mode.solid_skip, List.nil_append]
      cases hfu with
      | more hfu => exact .more (.cons hfa hfu)
    · intro hns
      have hns := hns.resolve_right (by simp [isSingle])
      simp [Mode.skip_of_not_spaced hns, hsa (.inl hns), hsu (.inl hns)]
  | ahead => exact ⟨.ahead, allConform_nil, fun _ => rfl⟩

end Peg

end Mt22
