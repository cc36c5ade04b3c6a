import Mathlib.Data.List.Forall2
import Mt22.Program.Operator
import Mt22.Proofs.Tree.Conforms

/-!
# The children of conforming nodes

What the grammar promises about the children of a node.  For a rule without repetition there are
finitely many lists of rules that they can have, which `Peg.kids` computes from the body
(`Is.shape`).  A rule with repetition is of one of a few forms, each with a lemma of its own.
-/

namespace Mt22

open Mt22.Tree

/-- The lists of rules of the nodes that an expression without repetition gives. -/
def Peg.kids : Peg → List (List Rule)
  | text _ | one _ | start | finish | ahead _ | absent _ | star _ | more _ => [[]]
  | call r => [[r]]
  | seq a b => a.kids.flatMap fun xs => b.kids.map (xs ++ ·)
  | choice a b => a.kids ++ b.kids
  | opt a => [] :: a.kids

/-- An expression without repetition. -/
def Peg.isFinite : Peg → Bool
  | star _ | more _ => false
  | seq a b | choice a b => a.isFinite && b.isFinite
  | opt a => a.isFinite
  | _ => true

/-- The rules of the nodes among trees that fit are among those computed. -/
theorem Peg.Fits.kids {e : Peg} {ts : List Tree} (h : e.Fits ts) (he : e.isFinite = true) :
    ∃ rs ∈ e.kids, (nodes ts).map rule? = rs.map some := by
  induction h with
  | text | start | finish | ahead => exact ⟨[], List.mem_singleton.mpr rfl, rfl⟩
  | @call r t hr =>
    refine ⟨[r], List.mem_singleton.mpr rfl, ?_⟩
    rw [nodes_cons_of_rule hr, nodes_nil, List.map_singleton, hr, List.map_singleton]
  | seq _ _ iha ihb =>
    obtain ⟨hea, heb⟩ := Bool.and_eq_true_iff.mp he
    obtain ⟨xs, hxs, ha⟩ := iha hea
    obtain ⟨ys, hys, hb⟩ := ihb heb
    refine ⟨xs ++ ys, List.mem_flatMap.mpr ⟨xs, hxs, List.mem_map.mpr ⟨ys, hys, rfl⟩⟩, ?_⟩
    rw [nodes_append, List.map_append, ha, hb, List.map_append]
  | left _ ih =>
    obtain ⟨rs, hrs, h⟩ := ih (Bool.and_eq_true_iff.mp he).1
    exact ⟨rs, List.mem_append_left _ hrs, h⟩
  | right _ ih =>
    obtain ⟨rs, hrs, h⟩ := ih (Bool.and_eq_true_iff.mp he).2
    exact ⟨rs, List.mem_append_right _ hrs, h⟩
  | without => exact ⟨[], List.mem_cons_self, rfl⟩
  | within _ ih =>
    obtain ⟨rs, hrs, h⟩ := ih he
    exact ⟨rs, List.mem_cons_of_mem _ hrs, h⟩
  | nil | cons | more => cases he

namespace Tree

variable {t : Tree} {r : Rule}

theorem Conforms.children (h : t.Conforms) : ∀ c ∈ t.children, c.Conforms := by
  intro c hc
  obtain ⟨hmem, hnode⟩ := List.mem_filter.mp hc
  cases h with
  | token =>
    obtain rfl := List.mem_singleton.mp hmem
    cases hnode
  | node _ _ _ hparts => exact hparts c hmem hnode

theorem Is.children_conform (h : Is r t) (hk : r.kind ≠ .token) : ∀ c ∈ t.children, c.Conforms := by
  intro c hc
  obtain ⟨hmem, hn⟩ := List.mem_filter.mp hc
  exact (h.fits hk).2 c hmem hn

/-- Nodes of given rules. -/
theorem forall₂_is {rs : List Rule} {cs : List Tree} (hr : cs.map rule? = rs.map some)
    (hc : ∀ c ∈ cs, c.Conforms) : List.Forall₂ Is rs cs := by
  induction cs generalizing rs with
  | nil =>
    rw [List.map_eq_nil_iff.mp hr.symm]
    exact .nil
  | cons c cs ih =>
    cases rs with
    | nil => cases hr
    | cons r rs =>
      obtain ⟨h1, h2⟩ := List.cons.inj hr
      exact .cons ⟨h1, hc c List.mem_cons_self⟩
        (ih h2 fun d hd => hc d (List.mem_cons_of_mem c hd))

theorem forall₂_one {a : Rule} {cs : List Tree} (h : List.Forall₂ Is [a] cs) :
    ∃ c, cs = [c] ∧ Is a c := by
  obtain ⟨c, cs, hc, hcs, rfl⟩ := List.forall₂_cons_left_iff.mp h
  exact ⟨c, by rw [List.forall₂_nil_left_iff.mp hcs], hc⟩

theorem forall₂_two {a b : Rule} {cs : List Tree} (h : List.Forall₂ Is [a, b] cs) :
    ∃ c d, cs = [c, d] ∧ Is a c ∧ Is b d := by
  obtain ⟨c, cs, hc, hcs, rfl⟩ := List.forall₂_cons_left_iff.mp h
  obtain ⟨d, rfl, hd⟩ := forall₂_one hcs
  exact ⟨c, d, rfl, hc, hd⟩

theorem forall₂_three {a b a' : Rule} {cs : List Tree} (h : List.Forall₂ Is [a, b, a'] cs) :
    ∃ c d e, cs = [c, d, e] ∧ Is a c ∧ Is b d ∧ Is a' e := by
  obtain ⟨c, cs, hc, hcs, rfl⟩ := List.forall₂_cons_left_iff.mp h
  obtain ⟨d, e, rfl, hd, he⟩ := forall₂_two hcs
  exact ⟨c, d, e, rfl, hc, hd, he⟩

theorem forall₂_four {a b a' b' : Rule} {cs : List Tree} (h : List.Forall₂ Is [a, b, a', b'] cs) :
    ∃ c d e f, cs = [c, d, e, f] ∧ Is a c ∧ Is b d ∧ Is a' e ∧ Is b' f := by
  obtain ⟨c, cs, hc, hcs, rfl⟩ := List.forall₂_cons_left_iff.mp h
  obtain ⟨d, e, f, rfl, hd, he, hf⟩ := forall₂_three hcs
  exact ⟨c, d, e, f, rfl, hc, hd, he, hf⟩

/-- **The children of a conforming node** of a rule without repetition have one of the lists of
rules that are computed from its body. -/
theorem Is.shape (h : Is r t) (hk : r.kind ≠ .token) (he : r.body.isFinite = true) :
    ∃ rs ∈ r.body.kids, List.Forall₂ Is rs t.children := by
  obtain ⟨rs, hrs, hm⟩ := (h.fits hk).1.kids he
  rw [nodes_solid] at hm
  exact ⟨rs, hrs, forall₂_is hm (h.children_conform hk)⟩

theorem Is.shape_two {a b : Rule} (h : Is r t) (hk : r.kind ≠ .token)
    (he : r.body.isFinite = true) (hkids : r.body.kids = [[a, b]]) :
    ∃ c d, t.children = [c, d] ∧ Is a c ∧ Is b d := by
  obtain ⟨rs, hrs, hc⟩ := h.shape hk he
  rw [hkids, List.mem_singleton] at hrs
  subst hrs
  exact forall₂_two hc

/-- The children of a node whose body is a choice between other nodes: there is one. -/
theorem Is.shape_one (h : Is r t) (rs : List Rule) (hk : r.kind ≠ .token)
    (he : r.body.isFinite = true) (hkids : r.body.kids = rs.map ([·])) :
    ∃ r' ∈ rs, ∃ c, t.children = [c] ∧ Is r' c := by
  obtain ⟨qs, hqs, hc⟩ := h.shape hk he
  rw [hkids] at hqs
  obtain ⟨r', hr', rfl⟩ := List.mem_map.mp hqs
  exact ⟨r', hr', forall₂_one hc⟩

/-- A rule whose nodes have no children. -/
def isLeaf (r : Rule) : Bool :=
  r.kind = .token || r.body.isFinite && r.body.kids.all List.isEmpty

theorem Is.children_nil (h : Is r t) (hr : isLeaf r = true) : t.children = [] := by
  rw [isLeaf, Bool.or_eq_true, decide_eq_true_eq, Bool.and_eq_true] at hr
  by_cases hk : r.kind = .token
  · obtain ⟨a, b, w, rfl, -⟩ := h.token hk
    rfl
  · obtain ⟨hf, hall⟩ := hr.resolve_left hk
    obtain ⟨rs, hrs, hc⟩ := h.shape hk hf
    rw [List.isEmpty_iff.mp (List.all_eq_true.mp hall rs hrs)] at hc
    exact List.forall₂_nil_left_iff.mp hc

end Tree

/-! ### Repetition -/

namespace Peg.Fits

variable {r r' : Rule} {ts : List Tree}

/-- Any number of items. -/
theorem star_kids {e : Peg} (h : (Peg.star e).Fits ts) (he : e.isFinite = true) :
    ∀ c ∈ nodes ts, ∃ rs ∈ e.kids, ∃ r ∈ rs, c.rule? = some r := by
  generalize hs : Peg.star e = s at h
  induction h with
  | nil => intro c hc; cases hc
  | cons ha _ _ ih =>
    cases hs
    intro c hc
    rw [nodes_append, List.mem_append] at hc
    rcases hc with hc | hc
    · obtain ⟨rs, hrs, hm⟩ := ha.kids he
      obtain ⟨r, hr, hcr⟩ := List.mem_map.mp (hm ▸ List.mem_map_of_mem hc)
      exact ⟨rs, hrs, r, hr, hcr.symm⟩
    · exact ih rfl c hc
  | _ => cases hs

/-- Items with commas between them. -/
theorem commaList (h : (Peg.commaList (.call r)).Fits ts) :
    nodes ts ≠ [] ∧ ∀ c ∈ nodes ts, c.rule? = some r := by
  obtain ⟨xs, ys, rfl, hx, hy⟩ := seq_iff.mp h
  obtain ⟨t, rfl, ht⟩ := call_iff.mp hx
  rw [nodes_append, nodes_cons_of_rule ht]
  refine ⟨by simp, ?_⟩
  intro c hc
  rcases List.mem_append.mp hc with hc | hc
  · rw [nodes_nil, List.mem_singleton] at hc
    rw [hc, ht]
  · obtain ⟨rs, hrs, r', hr', hc'⟩ := star_kids hy rfl c hc
    obtain rfl := List.mem_singleton.mp hrs
    obtain rfl := List.mem_singleton.mp hr'
    exact hc'

/-- Operators and operands in turn. -/
theorem star_pairs (h : (Peg.star (.seq (.call r) (.call r'))).Fits ts) :
    ∃ pairs : List (Tree × Tree), nodes ts = pairs.flatMap (fun p => [p.1, p.2]) ∧
      ∀ p ∈ pairs, p.1.rule? = some r ∧ p.2.rule? = some r' := by
  generalize he : Peg.star (.seq (.call r) (.call r')) = e at h
  induction h with
  | nil => exact ⟨[], rfl, by simp⟩
  | cons ha _ _ ih =>
    cases he
    obtain ⟨xs, ys, rfl, hx, hy⟩ := seq_iff.mp ha
    obtain ⟨o, rfl, ho⟩ := call_iff.mp hx
    obtain ⟨t, rfl, ht⟩ := call_iff.mp hy
    obtain ⟨pairs, hn, hp⟩ := ih rfl
    refine ⟨(o, t) :: pairs, ?_, ?_⟩
    · rw [nodes_append, hn, List.singleton_append, nodes_cons_of_rule ho, nodes_cons_of_rule ht,
        nodes_nil]
      rfl
    · intro p hmem
      rcases List.mem_cons.mp hmem with rfl | hmem
      · exact ⟨ho, ht⟩
      · exact hp p hmem
  | _ => cases he

end Peg.Fits

namespace Tree

variable {t : Tree} {r r' : Rule}

/-- The children of a node whose body is a list with commas. -/
theorem Is.commaList (h : Is r t) (r' : Rule) (hk : r.kind ≠ .token)
    (hb : r.body = Peg.commaList (.call r')) :
    t.children ≠ [] ∧ ∀ c ∈ t.children, Is r' c := by
  have hf := (h.fits hk).1
  rw [hb] at hf
  obtain ⟨hne, hall⟩ := hf.commaList
  rw [nodes_solid] at hne hall
  exact ⟨hne, fun c hc => ⟨hall c hc, h.children_conform hk c hc⟩⟩

/-- The children of a node whose body is a chain of operands. -/
theorem Is.chain {o : Rule} (h : Is r t) (hk : r.kind ≠ .token)
    (hb : r.body = .seq (.call r') (.star (.seq (.call o) (.call r')))) :
    ∃ (l : Tree) (pairs : List (Tree × Tree)),
      t.children = l :: pairs.flatMap (fun p => [p.1, p.2]) ∧ Is r' l ∧
        ∀ p ∈ pairs, Is o p.1 ∧ Is r' p.2 := by
  have hf := (h.fits hk).1
  rw [hb] at hf
  obtain ⟨xs, ys, hsolid, hx, hy⟩ := Peg.Fits.seq_iff.mp hf
  obtain ⟨l, rfl, hl⟩ := Peg.Fits.call_iff.mp hx
  obtain ⟨pairs, hn, hp⟩ := hy.star_pairs
  have hchildren : t.children = l :: pairs.flatMap fun p => [p.1, p.2] := by
    rw [children, ← nodes_solid, hsolid, List.singleton_append, nodes_cons_of_rule hl, hn]
  have hc := h.children_conform hk
  rw [hchildren] at hc
  refine ⟨l, pairs, hchildren, ⟨hl, hc l List.mem_cons_self⟩, ?_⟩
  intro p hmem
  have hin : ∀ u ∈ [p.1, p.2], u.Conforms := fun u hu =>
    hc u (List.mem_cons_of_mem l (List.mem_flatMap.mpr ⟨p, hmem, hu⟩))
  exact ⟨⟨(hp p hmem).1, hin p.1 (by simp)⟩, ⟨(hp p hmem).2, hin p.2 (by simp)⟩⟩

theorem Is.block (h : Is .block t) : ∀ c ∈ t.children, Is .varDecl c ∨ Is .statement c := by
  have hk : Rule.kind .block ≠ .token := by decide
  obtain ⟨xs, ys, hsolid, hx, hy⟩ := Peg.Fits.seq_iff.mp (h.fits hk).1
  obtain ⟨zs, ws, rfl, hz, hw⟩ := Peg.Fits.seq_iff.mp hy
  obtain rfl := Peg.Fits.text_iff.mp hx
  obtain rfl := Peg.Fits.text_iff.mp hw
  have hchildren : t.children = nodes zs := by
    rw [children, ← nodes_solid, hsolid, List.singleton_append, nodes_cons_token, nodes_append,
      nodes_cons_token, nodes_nil, List.append_nil]
  intro c hc
  have hconf := h.children_conform hk c hc
  rw [hchildren] at hc
  obtain ⟨rs, hrs, r', hr', hcr⟩ := hz.star_kids rfl c hc
  simp only [Peg.kids, Peg.oneOf, List.singleton_append, List.mem_cons, List.not_mem_nil,
    or_false] at hrs
  rcases hrs with rfl | rfl
  · obtain rfl := List.mem_singleton.mp hr'
    exact .inl ⟨hcr, hconf⟩
  · obtain rfl := List.mem_singleton.mp hr'
    exact .inr ⟨hcr, hconf⟩

theorem Is.initializers (h : Is .initializers t) :
    t.children ≠ [] ∧ ∀ c ∈ t.children, Is .expression c := by
  have hk : Rule.kind .initializers ≠ .token := by decide
  obtain ⟨xs, ys, hsolid, hx, hy⟩ := Peg.Fits.seq_iff.mp (h.fits hk).1
  obtain rfl := Peg.Fits.text_iff.mp hx
  obtain ⟨hne, hall⟩ := hy.commaList
  have hchildren : t.children = nodes ys := by
    rw [children, ← nodes_solid, hsolid, List.singleton_append, nodes_cons_token]
  rw [hchildren]
  exact ⟨hne, fun c hc => ⟨hall c hc, h.children_conform hk c (hchildren ▸ hc)⟩⟩

theorem Is.program (h : Is .program t) :
    ∃ ds e, t.children = ds ++ [e] ∧ ds ≠ [] ∧ (∀ d ∈ ds, Is .declaration d) ∧ Is .eoi e := by
  have hk : Rule.kind .program ≠ .token := by decide
  obtain ⟨xs, ys, hsolid, hx, hy⟩ := Peg.Fits.seq_iff.mp (h.fits hk).1
  obtain ⟨zs, ws, rfl, hz, hw⟩ := Peg.Fits.seq_iff.mp hy
  obtain rfl := Peg.Fits.start_iff.mp hx
  obtain ⟨e, rfl, he⟩ := Peg.Fits.call_iff.mp hw
  obtain ⟨us, vs, rfl, hu, hv⟩ := Peg.Fits.seq_iff.mp hz
  obtain ⟨d, rfl, hd⟩ := Peg.Fits.call_iff.mp hu
  have hchildren : t.children = (d :: nodes vs) ++ [e] := by
    rw [children, ← nodes_solid, hsolid, List.nil_append, nodes_append, List.singleton_append,
      nodes_cons_of_rule hd, nodes_cons_of_rule he, nodes_nil]
  have hc := h.children_conform hk
  rw [hchildren] at hc
  refine ⟨d :: nodes vs, e, hchildren, by simp, ?_, ⟨he, hc e (by simp)⟩⟩
  intro c hmem
  refine ⟨?_, hc c (List.mem_append_left _ hmem)⟩
  rcases List.mem_cons.mp hmem with rfl | hmem
  · exact hd
  · obtain ⟨rs, hrs, r', hr', hcr⟩ := hv.star_kids rfl c hmem
    obtain rfl := List.mem_singleton.mp hrs
    obtain rfl := List.mem_singleton.mp hr'
    exact hcr

end Tree

/-! ### Operators -/

/-- The texts of an expression that is a choice between texts. -/
def Peg.texts? : Peg → Option (List (List Char))
  | text s => some [s]
  | choice a b => do return (← a.texts?) ++ (← b.texts?)
  | _ => none

theorem Peg.Fits.texts {e : Peg} {ts : List Tree} (h : e.Fits ts) :
    ∀ {ss : List (List Char)}, e.texts? = some ss → ∃ s ∈ ss, ts = [.token s] := by
  induction h with
  | text s =>
    intro ss hs
    obtain rfl := Option.some.inj hs
    exact ⟨s, List.mem_singleton.mpr rfl, rfl⟩
  | @left a b ts _ ih =>
    intro ss hs
    obtain ⟨as, ha, hs⟩ := Option.bind_eq_some_iff.mp hs
    obtain ⟨bs, -, hs⟩ := Option.bind_eq_some_iff.mp hs
    obtain rfl := Option.some.inj hs
    obtain ⟨s, hmem, rfl⟩ := ih ha
    exact ⟨s, List.mem_append_left _ hmem, rfl⟩
  | @right a b ts _ ih =>
    intro ss hs
    obtain ⟨as, -, hs⟩ := Option.bind_eq_some_iff.mp hs
    obtain ⟨bs, hb, hs⟩ := Option.bind_eq_some_iff.mp hs
    obtain rfl := Option.some.inj hs
    obtain ⟨s, hmem, rfl⟩ := ih hb
    exact ⟨s, List.mem_append_right _ hmem, rfl⟩
  | _ => intro ss hs; cases hs

/-- The rule of an operator between operands. -/
def BinaryOp.rule : BinaryOp → Rule
  | concat => .concatOp
  | eq | ne | lt | le | gt | ge => .relOp
  | and | or => .logicOp
  | add | sub => .addOp
  | mul | div | mod => .mulOp

/-- The rule of an operator before an operand. -/
def UnaryOp.rule : UnaryOp → Rule
  | not => .notOp
  | neg => .negOp

namespace Tree

variable {t : Tree} {r : Rule}

/-- The text of a node that is one of a choice between texts. -/
theorem Is.text_mem {ss : List (List Char)} (h : Is r t) (hk : r.kind ≠ .token)
    (hr : r.isTight = true) (hs : r.body.texts? = some ss) : t.text ∈ ss := by
  have hf := (h.fits hk).1
  rw [h.tight hr] at hf
  obtain ⟨s, hmem, hp⟩ := hf.texts hs
  cases t with
  | token | trivia => cases h.rule
  | node r' a b ps =>
    obtain rfl : ps = [.token s] := hp
    simpa [text, textAll] using hmem

/-- A node of an operator between operands spells one of that rule. -/
theorem Is.binaryOp (h : Is r t) (hr : r ∈ [.concatOp, .relOp, .logicOp, .addOp, .mulOp]) :
    ∃ op : BinaryOp, op.rule = r ∧ t.string = op.symbol := by
  have hops : ∀ r ∈ [Rule.concatOp, .relOp, .logicOp, .addOp, .mulOp],
      r.kind ≠ .token ∧ r.isTight = true ∧ ∃ ss ∈ r.body.texts?, ∀ s ∈ ss,
        ∃ op ∈ BinaryOp.all, op.rule = r ∧ op.symbol.toList = s := by
    decide
  obtain ⟨hk, ht, ss, hss, hall⟩ := hops r hr
  obtain ⟨op, -, hop, hs⟩ := hall _ (h.text_mem hk ht hss)
  exact ⟨op, hop, by rw [string, ← hs, String.ofList_toList]⟩

/-- The operators of a chain. -/
theorem exists_ops {opRule : Rule} {pairs : List (Tree × Tree)}
    (hop : opRule ∈ [.concatOp, .relOp, .logicOp, .addOp, .mulOp])
    (h : ∀ p ∈ pairs, Is opRule p.1) :
    ∃ ops : List BinaryOp,
      pairs.map (fun p => BinaryOp.ofSymbol? p.1.string) = ops.map some := by
  induction pairs with
  | nil => exact ⟨[], rfl⟩
  | cons p pairs ih =>
    obtain ⟨ops, hops⟩ := ih fun q hq => h q (List.mem_cons_of_mem p hq)
    obtain ⟨op, -, hs⟩ := (h p List.mem_cons_self).binaryOp hop
    exact ⟨op :: ops, by rw [List.map_cons, hops, hs, op.ofSymbol?_symbol, List.map_cons]⟩

/-- A node of an operator before an operand spells the one of that rule. -/
theorem Is.unaryOp (op : UnaryOp) (h : Is op.rule t) : t.string = op.symbol := by
  have hops : ∀ op ∈ UnaryOp.all,
      op.rule.kind ≠ .token ∧ op.rule.isTight = true ∧
        op.rule.body.texts? = some [op.symbol.toList] := by
    decide
  obtain ⟨hk, ht, hss⟩ := hops op (by cases op <;> decide)
  rw [string, List.mem_singleton.mp (h.text_mem hk ht hss), String.ofList_toList]

end Tree

end Mt22
