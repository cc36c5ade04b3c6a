import Mt22.Proofs.Parsing.Operand
import Mt22.Proofs.Script.Accept
import Mt22.Proofs.Tree.Visit

/-!
# Programs are made of program nodes only

A program is made of the declarations and the end of the text that stand below a node, and nothing
asks for the rule of the node itself.  This is enough, since in the grammar both are called by the
rule of programs alone (`Rule.calls_of_ne_program`), and a rule that is read by itself leaves its own
node, with nodes of the rules that it calls below it, or no node at all (`Rule.read_nodes`).  So what
any other rule leaves lacks the end of the text (`Script.only_programs_lower`).
-/

namespace Mt22

open Mt22.Tree

/-! ### What a rule leaves -/

/-- An expression that calls no rule leaves no node. -/
theorem Peg.nodes_of_matches {m : Mode} {e : Peg} {c c' : Cursor} {ts : List Tree}
    (h : Matches m e c ts c') (he : e.calls = []) : nodes ts = [] := by
  induction h with
  | text | one | start | finish | without | starNil | moreNil | ahead | absent => rfl
  | call => cases he
  | seq _ _ iha ihb =>
    obtain ⟨ha, hb⟩ := List.append_eq_nil_iff.mp he
    rw [nodes_append, nodes_append, iha ha, ihb hb, nodes_skip]
    rfl
  | left _ ih => exact ih (List.append_eq_nil_iff.mp he).1
  | right _ _ ih => exact ih (List.append_eq_nil_iff.mp he).2
  | within _ ih => exact ih he
  | starCons _ _ iha ihu =>
    rw [nodes_append, iha he, ihu he]
    rfl
  | moreCons _ _ iha ihu =>
    rw [nodes_append, nodes_append, iha he, ihu he, nodes_skip]
    rfl

namespace Rule

/-- A rule without a node of its own calls no rule. -/
theorem calls_of_not_isNamed {r : Rule} (h : r.kind.isNamed = false) : r.body.calls = [] := by
  have hall : ∀ r ∈ all, r.kind.isNamed = false → r.body.calls = [] := by decide
  exact hall r r.mem_all h

/-- Declarations and the end of the text are parts of programs only. -/
theorem calls_of_ne_program {r : Rule} (h : r ≠ .program) :
    .declaration ∉ r.body.calls ∧ .eoi ∉ r.body.calls := by
  have hall : ∀ r ∈ all, r ≠ .program → .declaration ∉ r.body.calls ∧ .eoi ∉ r.body.calls := by
    decide
  exact hall r r.mem_all h

/-- **What is left of a rule that is read by itself**: no node, or one of its own, in which each
child has a rule that its body calls. -/
theorem read_nodes {r : Rule} {source : List Char} {ts : List Tree} (h : r.read source = .ok ts) :
    nodes ts = [] ∨ ∃ t, nodes ts = [t] ∧ t.rule? = some r ∧
      ∀ c ∈ t.children, ∀ q, c.rule? = some q → q ∈ r.body.calls := by
  obtain ⟨c, hreads⟩ := read_eq_ok_iff.mp h
  cases hreads with
  | call hb =>
    cases hk : r.kind with
    | plain | compound =>
      have hk : r.kind = .plain ∨ r.kind = .compound := by simp [hk]
      have henter : (Mode.normal.enter r.kind).nodes = true := by
        rcases hk with hk | hk <;> rw [hk] <;> rfl
      obtain ⟨hfits, -, -⟩ := Peg.fits_of_matches hb henter (isSyntax_body r hk)
      rw [Mode.leave_node rfl hk]
      refine .inr ⟨_, rfl, rfl, fun d hd q hq => hfits.mem_calls d ?_ q hq⟩
      rw [children, ← nodes_solid] at hd
      exact List.mem_of_mem_filter hd
    | token =>
      rw [Mode.leave_token rfl hk]
      exact .inr ⟨_, rfl, rfl, fun d hd => absurd hd List.not_mem_nil⟩
    | hidden | bare =>
      have hnamed : r.kind.isNamed = false := by rw [hk]; rfl
      rw [Mode.leave, hnamed, Bool.and_false, if_neg Bool.false_ne_true]
      exact .inl (Peg.nodes_of_matches hb (calls_of_not_isNamed hnamed))

end Rule

/-! ### Nodes that are no programs -/

/-- Where no declaration is below a node, the first child must be the end of the text. -/
theorem Program.ofTree_of_no_declaration {t : Tree}
    (h : ∀ c ∈ t.children, c.rule? ≠ some .declaration ∧ c.rule? ≠ some .eoi) :
    Program.ofTree t = .error (.shape t (.expected .eoi (t.children.head?.bind rule?))) := by
  have hmany : Visit.many .declaration t.childList = .ok ([], t.childList) := by
    refine Visit.many_append (fun c hc => absurd hc List.not_mem_nil) fun d hd hrule => ?_
    have hmem : d.tree ∈ t.children := childList_map t ▸ List.mem_map_of_mem hd
    exact (h d.tree hmem).1 (hrule ▸ d.rule?_eq)
  simp only [Program.ofTree, visitAll, visit, Visit.bind_run, hmany, Visit.ok_bind, Visit.mapM_run,
    List.map_nil, List.mapM_nil, Visit.pure_eq_ok]
  cases hc : t.children with
  | nil =>
    rw [childList_nil hc]
    rfl
  | cons l ls =>
    obtain ⟨c, cs, hlist, rfl, -⟩ := childList_cons hc
    have hne : c.rule ≠ .eoi := by
      intro hrule
      exact (h c.tree (by simp [hc])).2 (hrule ▸ c.rule?_eq)
    have hexpect : Visit.expect .eoi (c :: cs) =
        .error (.shape t (.expected .eoi (some c.rule))) := by
      rw [Visit.expect, if_neg hne]
    rw [hlist, hexpect, List.head?_cons, Option.bind_some, c.rule?_eq]
    rfl

namespace Script

/-- **Only program nodes are lowered.**  A node that any other rule leaves at the start of a script
is refused, since its first child, if it has one, is not the end of the text.  This is a fault in the
shape of the node: its level is critical, and its message names the rules of the node and of the
child. -/
theorem only_programs_lower (s : Script) (r : Rule) (hr : r ≠ .program) (t : Tree)
    (rest : List Tree) (h : s.parseRule r = .ok (t :: rest)) :
    t.rule? = some r ∧
      ∃ f : Fault, f = .shape t (.expected .eoi (t.children.head?.bind rule?)) ∧
        lower t = .error (.faulty f) ∧
        (s.diagnose (.faulty f)).level = .critical ∧
        (s.diagnose (.faulty f)).issuer = "mt22.lower." ++ r.name ∧
        (s.diagnose (.faulty f)).message = r.name ++ ": expected EOI but found " ++
          ((t.children.head?.bind rule?).map Rule.name).getD "none" := by
  rw [parseRule] at h
  cases hread : r.read s.source with
  | error w => rw [hread] at h; cases h
  | ok ts =>
    rw [hread] at h
    have hnodes : nodes ts = t :: rest := Except.ok.inj h
    rcases Rule.read_nodes hread with hnone | ⟨u, hu, hrule, hcalls⟩
    · rw [hnone] at hnodes
      cases hnodes
    · obtain ⟨rfl, -⟩ := List.cons.inj (hu.symm.trans hnodes)
      obtain ⟨hdecl, heoi⟩ := Rule.calls_of_ne_program hr
      have hfault := Program.ofTree_of_no_declaration (t := u) fun c hc =>
        ⟨fun hd => hdecl (hcalls c hc _ hd), fun he => heoi (hcalls c hc _ he)⟩
      have hname : u.ruleName = r.name := by rw [ruleName, hrule]; rfl
      refine ⟨hrule, _, rfl, by rw [lower, hfault]; rfl, rfl, ?_, ?_⟩
      · rw [← hname]
        rfl
      · rw [← hname, String.append_assoc]
        show u.ruleName ++ ": " ++ ("expected " ++ "EOI" ++ " but found " ++ _) = _
        simp only [String.append_assoc]
        rfl

/-- A block holds a statement where a program would hold a declaration. -/
theorem only_programs_lower_block :
    Rule.block ≠ .program ∧
      ∃ t, (ofSource "<string>" "\x7b return; \x7d").parseRule .block = .ok [t] ∧
        lower t = .error (.faulty (.shape t (.expected .eoi (some .statement)))) := by
  refine ⟨by decide, ?_⟩
  generalize hs : ofSource "<string>" "\x7b return; \x7d" = s
  have hfirst : (s.parseRule .block).toOption.map (·.map fun t => t.children.head?.bind rule?) =
      some [some .statement] := by
    rw [← hs]
    decide +kernel
  cases h : s.parseRule .block with
  | error w => rw [h] at hfirst; cases hfirst
  | ok ts =>
    rw [h] at hfirst
    obtain ⟨t, rfl, ht⟩ := List.map_eq_singleton_iff.mp (Option.some.inj hfirst)
    obtain ⟨-, -, rfl, hlower, -⟩ := only_programs_lower s .block (by decide) t [] h
    exact ⟨t, rfl, ht ▸ hlower⟩

end Script

end Mt22
