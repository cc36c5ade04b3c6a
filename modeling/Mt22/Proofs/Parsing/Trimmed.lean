import Mt22.Proofs.Program.Blame
import Mt22.Proofs.Script.Accept

/-!
# Nodes without trivia at their edges

Trivia is skipped between the items of a body, so what is left of a body that starts with a text or a
node starts with it, and likewise at the end (`Peg.trims_of_matches`).  Where the first or the last
item may be empty this fails: the operand `a` in `a ;` keeps the blank.

`Tree.Trimmed` says it of all nodes of a tree, and it holds of whatever is read
(`Peg.trimmed_of_matches`).  So a variable group reaches from its first name to its semicolon and no
further (`Tree.Trimmed.varDecl_text`).
-/

namespace Mt22

open Mt22.Tree

/-! ### Edges of expressions -/

namespace Peg

/-- Whatever the expression leaves starts with a token or a node. -/
def opens : Peg → Bool
  | text _ => true
  | call r => r.kind.isNamed
  | seq a _ => a.opens
  | choice a b => a.opens && b.opens
  | _ => false

/-- Whatever the expression leaves ends with a token or a node. -/
def closes : Peg → Bool
  | text _ => true
  | call r => r.kind.isNamed
  | seq _ b => b.closes
  | choice a b => a.closes && b.closes
  | _ => false

/-- Trees without trivia at the edges where the expression has an item. -/
structure Trims (e : Peg) (ts : List Tree) : Prop where
  first : e.opens = true → ∃ t us, ts = t :: us ∧ t.isTrivia = false
  last : e.closes = true → ∃ us t, ts = us ++ [t] ∧ t.isTrivia = false

theorem trims_singleton {t : Tree} (e : Peg) (h : t.isTrivia = false) : e.Trims [t] :=
  ⟨fun _ => ⟨t, [], rfl, h⟩, fun _ => ⟨[], t, rfl, h⟩⟩

/-- Trivia is skipped after the first and before the last item of a sequence, never outside. -/
theorem trims_of_matches {m : Mode} {e : Peg} {c c' : Cursor} {ts : List Tree}
    (h : Matches m e c ts c') (hm : m.nodes = true) : e.Trims ts := by
  induction h with
  | text => exact trims_singleton _ rfl
  | @call m r =>
    by_cases hr : r.kind.isNamed = true
    · rw [Mode.leave, if_pos (by rw [hm, hr]; rfl)]
      exact trims_singleton _ rfl
    · exact ⟨fun ho => absurd ho hr, fun hc => absurd hc hr⟩
  | @seq m a b c ca c' ta tb _ _ iha ihb =>
    refine ⟨fun ho => ?_, fun hc => ?_⟩
    · obtain ⟨t, us, rfl, ht⟩ := (iha hm).first ho
      exact ⟨t, us ++ (m.skip ca).1 ++ tb, by simp, ht⟩
    · obtain ⟨us, t, rfl, ht⟩ := (ihb hm).last hc
      exact ⟨ta ++ (m.skip ca).1 ++ us, t, by simp, ht⟩
  | left _ ih =>
    exact ⟨fun ho => (ih hm).first (Bool.and_eq_true_iff.mp ho).1,
      fun hc => (ih hm).last (Bool.and_eq_true_iff.mp hc).1⟩
  | right _ _ ih =>
    exact ⟨fun ho => (ih hm).first (Bool.and_eq_true_iff.mp ho).2,
      fun hc => (ih hm).last (Bool.and_eq_true_iff.mp hc).2⟩
  | _ => exact ⟨fun ho => absurd ho Bool.false_ne_true, fun hc => absurd hc Bool.false_ne_true⟩

end Peg

/-! ### Trimmed trees -/

namespace Tree

/-- No node has trivia at an edge where its body has an item. -/
inductive Trimmed : Tree → Prop
  | node {r : Rule} {a b : Nat} {ps : List Tree} (edges : r.body.Trims ps)
      (parts : ∀ t ∈ ps, t.isNode = true → Trimmed t) : Trimmed (.node r a b ps)

/-- All nodes among the trees are trimmed. -/
def AllTrimmed (ts : List Tree) : Prop := ∀ t ∈ ts, t.isNode = true → t.Trimmed

theorem allTrimmed_nil : AllTrimmed [] := by
  intro t ht
  cases ht

theorem allTrimmed_append {ts us : List Tree} (h : AllTrimmed ts) (h' : AllTrimmed us) :
    AllTrimmed (ts ++ us) := by
  intro t ht
  rcases List.mem_append.mp ht with ht | ht
  · exact h t ht
  · exact h' t ht

theorem allTrimmed_token (s : List Char) : AllTrimmed [.token s] := by
  intro t ht hn
  obtain rfl := List.mem_singleton.mp ht
  cases hn

theorem allTrimmed_skip (m : Mode) (c : Cursor) : AllTrimmed (m.skip c).1 := by
  intro t ht hn
  rw [Mode.not_isNode_skip ht] at hn
  cases hn

theorem Trimmed.within {t u : Tree} (h : t.Trimmed) (hu : u.Within t) : u.Trimmed := by
  induction hu with
  | self => exact h
  | child hc _ ih =>
    obtain ⟨hmem, hnode⟩ := List.mem_filter.mp hc
    cases h with
    | node _ hparts => exact ih (hparts _ hmem hnode)

end Tree

/-- What a rule leaves is trimmed if its body was read so. -/
theorem Mode.allTrimmed_leave {m : Mode} {r : Rule} {c c' : Cursor} {parts : List Tree}
    (hb : Peg.Matches (m.enter r.kind) r.body c parts c') (h : AllTrimmed parts) : AllTrimmed (m.leave r c c' parts) := by
  unfold leave
  split
  · next hnamed =>
    obtain ⟨hm, hr⟩ := Bool.and_eq_true_iff.mp hnamed
    intro t ht _
    obtain rfl := List.mem_singleton.mp ht
    by_cases hk : r.kind = .token
    · rw [if_pos hk]
      exact .node (Peg.trims_singleton _ rfl) (allTrimmed_token _)
    · -- the body of any other named rule leaves nodes if its surroundings do
      have henter : (m.enter r.kind).nodes = true := by
        cases hkind : r.kind with
        | plain | compound => exact hm
        | token => exact absurd hkind hk
        | hidden | bare => rw [hkind] at hr; cases hr
      rw [if_neg hk]
      exact .node (Peg.trims_of_matches hb henter) h
  · exact h

/-- **What is read is trimmed.** -/
theorem Peg.trimmed_of_matches {m : Mode} {e : Peg} {c c' : Cursor} {ts : List Tree}
    (h : Matches m e c ts c') : AllTrimmed ts := by
  induction h with
  | text | one => exact allTrimmed_token _
  | start | finish | without | starNil | moreNil | ahead | absent => exact allTrimmed_nil
  | call h ih => exact Mode.allTrimmed_leave h ih
  | seq _ _ iha ihb => exact allTrimmed_append (allTrimmed_append iha (allTrimmed_skip _ _)) ihb
  | left _ ih | right _ _ ih | within _ ih => exact ih
  | starCons _ _ iha ihu => exact allTrimmed_append iha ihu
  | moreCons _ _ iha ihu =>
    exact allTrimmed_append (allTrimmed_append (allTrimmed_skip _ _) iha) ihu

/-- The tree of an accepted script is trimmed. -/
theorem Script.trimmed_of_parse {s : Script} {t : Tree} (h : s.parse = .ok t) : t.Trimmed := by
  obtain ⟨ts, c, hreads, hnodes⟩ := parse_eq_ok_iff.mp h
  have hmem : t ∈ nodes ts := by
    rw [hnodes]
    exact List.mem_singleton.mpr rfl
  obtain ⟨hmem, hnode⟩ := List.mem_filter.mp hmem
  exact Peg.trimmed_of_matches hreads t hmem hnode

/-! ### Variable groups -/

namespace Tree

variable {t : Tree}

theorem text_of_rule {r : Rule} (h : t.rule? = some r) : t.text = textAll t.parts := by
  cases t with
  | token | trivia => cases h
  | node => exact text_node ..

/-- The first part of a trimmed node is the first that is no trivia. -/
theorem Trimmed.head_parts {r : Rule} {c : Tree} {cs : List Tree} (h : t.Trimmed)
    (hr : t.rule? = some r) (ho : r.body.opens = true) (hs : solid t.parts = c :: cs) :
    ∃ us, t.parts = c :: us := by
  cases h with
  | node hedges =>
    obtain rfl := Option.some.inj hr
    obtain ⟨p, us, rfl, hp⟩ := hedges.first ho
    have hsolid : solid (p :: us) = p :: solid us := List.filter_cons_of_pos (by simp [hp])
    have hs : solid (p :: us) = c :: cs := hs
    rw [hsolid] at hs
    obtain ⟨rfl, -⟩ := List.cons.inj hs
    exact ⟨us, rfl⟩

/-- The last part of a trimmed node is the last that is no trivia. -/
theorem Trimmed.last_parts {r : Rule} {c : Tree} {cs : List Tree} (h : t.Trimmed)
    (hr : t.rule? = some r) (ho : r.body.closes = true) (hs : solid t.parts = cs ++ [c]) :
    ∃ us, t.parts = us ++ [c] := by
  cases h with
  | node hedges =>
    obtain rfl := Option.some.inj hr
    obtain ⟨us, p, rfl, hp⟩ := hedges.last ho
    have hsolid : solid (us ++ [p]) = solid us ++ [p] := by
      rw [solid_append]
      exact congrArg (solid us ++ ·) (List.filter_cons_of_pos (by simp [hp]))
    have hs : solid (us ++ [p]) = cs ++ [c] := hs
    rw [hsolid] at hs
    obtain ⟨-, heq⟩ := List.append_inj' hs rfl
    obtain ⟨rfl, -⟩ := List.cons.inj heq
    exact ⟨us, rfl⟩

/-- A trimmed node whose body starts with a rule starts with a node of this rule. -/
theorem Trimmed.first_child {r q : Rule} {e : Peg} (h : t.Trimmed) (ht : Is r t)
    (hk : r.kind ≠ .token) (hbody : r.body = .seq (.call q) e) (hq : q.kind.isNamed = true) :
    ∃ c us, t.parts = c :: us ∧ Is q c ∧ t.children.head? = some c := by
  obtain ⟨hf, hconf⟩ := ht.fits hk
  rw [hbody] at hf
  obtain ⟨xs, ys, hsolid, hx, -⟩ := Peg.Fits.seq_iff.mp hf
  obtain ⟨c, rfl, hc⟩ := Peg.Fits.call_iff.mp hx
  have hopens : r.body.opens = true := by
    rw [hbody]
    exact hq
  obtain ⟨us, hparts⟩ := h.head_parts ht.rule hopens hsolid
  refine ⟨c, us, hparts, ⟨hc, hconf c ?_ (isNode_of_rule hc)⟩, ?_⟩
  · rw [hparts]
    exact List.mem_cons_self
  · rw [children, hparts, nodes_cons_of_rule hc]
    rfl

/-- **A variable group reaches from its first name to its semicolon.** -/
theorem Trimmed.varDecl_text (h : t.Trimmed) (ht : Is .varDecl t) :
    ∃ ns n mid, t.children.head? = some ns ∧ ns.rule? = some .nameList ∧
      ns.children.head? = some n ∧ n.rule? = some .identifier ∧
      t.text = n.text ++ mid ++ [';'] := by
  obtain ⟨ns, us, hparts, hns, hhead⟩ := h.first_child ht (by decide) rfl rfl
  have htrim : ns.Trimmed := h.within (.child (List.mem_of_head? hhead) (.self ns))
  obtain ⟨n, us', hparts', hn, hhead'⟩ := htrim.first_child hns (by decide) rfl rfl
  obtain ⟨xs, hsolid⟩ := ht.varDecl_solid
  obtain ⟨vs, hlast⟩ := h.last_parts ht.rule rfl hsolid
  -- the list of names is not the semicolon, so this is the last part after it
  obtain ⟨ws, rfl⟩ : ∃ ws, us = ws ++ [.token [';']] := by
    rw [hparts] at hlast
    cases vs with
    | nil =>
      obtain ⟨rfl, -⟩ := List.cons.inj hlast
      cases hns.rule
    | cons v vs => exact ⟨vs, (List.cons.inj hlast).2⟩
  refine ⟨ns, n, textAll us' ++ textAll ws, hhead, hns.rule, hhead', hn.rule, ?_⟩
  rw [text_of_rule ht.rule, hparts, textAll_cons, textAll_append, text_of_rule hns.rule, hparts',
    textAll_cons]
  simp only [List.append_assoc]
  rfl

end Tree

end Mt22
