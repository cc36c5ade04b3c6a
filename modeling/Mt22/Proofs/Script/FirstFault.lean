import Mt22.Proofs.Parsing.Spans
import Mt22.Proofs.Script.Spacing

/-!
# The first fault

A script may hold several faults of value.  The one that is reported is the one whose node stops first,
so what is wrong within a variable group comes before a wrong number of its initializers, and what comes
earlier in the source comes before what comes later.

A tree gives its faults in an order (`Tree.faults`) of which the first is reported
(`Tree.Conforms.ordered`).  Here that order is shown to be the order in which the nodes of the faults
stop: `Tree.Conforms.ranged`, by induction on conforming trees that span their text.
-/

namespace Mt22

open Mt22.Tree Mt22.Text Mt22.Number

/-- The nodes of the faults stop one after the other, after the offset `lo` and not after `hi`. -/
structure Ranged (lo hi : Nat) (fs : List Fault) : Prop where
  bounds : ∀ f ∈ fs, lo < f.node.stop ∧ f.node.stop ≤ hi
  sorted : fs.Pairwise fun f g => f.node.stop < g.node.stop

namespace Ranged

variable {lo mid hi : Nat} {fs gs : List Fault}

theorem nil : Ranged lo hi [] := ⟨fun _ h => (by cases h), .nil⟩

theorem single {f : Fault} (hlo : lo < f.node.stop) (hhi : f.node.stop ≤ hi) : Ranged lo hi [f] :=
  ⟨fun _ hg => List.mem_singleton.mp hg ▸ ⟨hlo, hhi⟩, List.pairwise_singleton _ f⟩

theorem append (hf : Ranged lo mid fs) (hg : Ranged mid hi gs) (hlo : lo ≤ mid) (hhi : mid ≤ hi) :
    Ranged lo hi (fs ++ gs) := by
  refine ⟨fun f h => ?_, List.pairwise_append.mpr ⟨hf.sorted, hg.sorted, fun f h g h' => ?_⟩⟩
  · rcases List.mem_append.mp h with h | h
    · exact ⟨(hf.bounds f h).1, (hf.bounds f h).2.trans hhi⟩
    · exact ⟨hlo.trans_lt (hg.bounds f h).1, (hg.bounds f h).2⟩
  · exact (hf.bounds f h).2.trans_lt (hg.bounds g h').1

/-- Faults that lie in the nodes of a list of trees, node by node. -/
theorem flatMap {F : Tree → List Fault} {o : Nat} {ps : List Tree} (h : SpansAll o ps)
    (hF : ∀ p ∈ nodes ps, ∀ o', p.Spans o' → Ranged o' (o' + byteSize p.text) (F p)) :
    Ranged o (o + byteSize (textAll ps)) ((nodes ps).flatMap F) := by
  induction ps generalizing o with
  | nil => exact nil
  | cons p ps ih =>
    obtain ⟨hp, hps⟩ := h
    have hhead : Ranged o (o + byteSize p.text) ((nodes [p]).flatMap F) := by
      cases p with
      | token | trivia => exact nil
      | node r a b qs =>
        have hone := hF (.node r a b qs) List.mem_cons_self o hp
        rwa [← List.flatMap_singleton F] at hone
    have htail := ih hps fun q hq => hF q (List.mem_filter.mpr
      ⟨List.mem_cons_of_mem p (List.mem_filter.mp hq).1, (List.mem_filter.mp hq).2⟩)
    rw [textAll, byteSize_append, ← Nat.add_assoc]
    have hnodes : nodes (p :: ps) = nodes [p] ++ nodes ps := List.filter_append [p] ps
    rw [hnodes, List.flatMap_append]
    exact hhead.append htail (Nat.le_add_right _ _) (Nat.le_add_right _ _)

end Ranged

namespace Tree

/-- A fault at an integer token stops with the token, which is not empty. -/
theorem Is.ranged_intLit {t : Tree} {f : Fault} {o : Nat} (h : Is .intLit t) (hs : t.Spans o)
    (hf : f.node = t) : Ranged o (o + byteSize t.text) [f] := by
  have hstop := hs.stop_eq (isNode_of_rule h.rule)
  obtain ⟨a, b, w, rfl, hw⟩ := h.token rfl
  have hpos : 0 < byteSize (textAll [.token w]) := byteSize_pos (by
    simpa [textAll, Tree.text] using isLexeme_ne_nil (isLexeme_of_allows hw (by decide)).1)
  have htext : (Tree.node .intLit a b [.token w]).text = textAll [.token w] := rfl
  rw [htext] at hstop ⊢
  exact .single (by rw [hf]; omega) (by rw [hf]; omega)

/-- What stands in a variable group stops before the group does, since a token closes it. -/
theorem Is.varDecl_parts {t : Tree} (h : Is .varDecl t) :
    ∃ qs rs, t.parts = qs ++ .token [';'] :: rs ∧ nodes rs = [] := by
  obtain ⟨xs, hxs⟩ := h.varDecl_solid
  obtain ⟨qs, us, hparts, -, hus⟩ := List.filter_eq_append_iff.mp hxs
  obtain ⟨qs', rs, rfl, -, -, hrs⟩ := List.filter_eq_cons_iff.mp hus
  have hrs : solid rs = [] := hrs
  exact ⟨qs ++ qs', rs, by rw [hparts, List.append_assoc], by rw [← nodes_solid, hrs]; rfl⟩

/-- A variable group has one fault by itself at most. -/
theorem Is.ownFaults_varDecl {t : Tree} (h : Is .varDecl t) :
    t.ownFaults = [] ∨ ∃ n v, t.ownFaults = [.initializerCount t n v] := by
  rcases h.varDecl_children with ⟨ns, ty, hc, hns, hty⟩ | ⟨ns, ty, vs, hc, hns, hty, hvs⟩
  · exact .inl (h.ownFaults_two hc hns hty)
  · rw [h.ownFaults_three hc hns hty hvs]
    split
    · exact .inr ⟨_, _, rfl⟩
    · exact .inl rfl

/-- The faults of a variable group: those within stop before the group. -/
theorem Is.ranged_varDecl {t : Tree} {o : Nat} (h : Is .varDecl t) (hs : t.Spans o)
    (hin : ∀ c ∈ t.children, ∀ o', c.Spans o' → Ranged o' (o' + byteSize c.text) c.faults) :
    Ranged o (o + byteSize t.text) t.faults := by
  have hstop := hs.stop_eq (isNode_of_rule h.rule)
  obtain ⟨qs, rs, hparts, hrs⟩ := h.varDecl_parts
  cases t with
  | token | trivia => cases h.rule
  | node r a b ps =>
    obtain rfl : ps = qs ++ .token [';'] :: rs := hparts
    have hnodes : nodes (qs ++ .token [';'] :: rs) = nodes qs := by
      have hsplit : nodes (.token [';'] :: rs) = nodes rs := rfl
      rw [nodes_append, hsplit, hrs, List.append_nil]
    have hsize : byteSize (node r a b (qs ++ .token [';'] :: rs)).text =
        byteSize (textAll qs) + (1 + byteSize (textAll rs)) := by
      rw [Tree.text, textAll_append, textAll, byteSize_append, byteSize_append]
      rfl
    have hbelow : Ranged o (o + byteSize (textAll qs))
        ((node r a b (qs ++ .token [';'] :: rs)).children.flatMap faults) := by
      rw [children, parts, hnodes]
      refine .flatMap (spansAll_append.mp hs.2.2).1 fun c hc => hin c ?_
      rw [children, parts, hnodes]
      exact hc
    have hown : Ranged (o + byteSize (textAll qs))
        (o + byteSize (node r a b (qs ++ .token [';'] :: rs)).text)
        (node r a b (qs ++ .token [';'] :: rs)).ownFaults := by
      rcases h.ownFaults_varDecl with hown | ⟨n, v, hown⟩ <;> rw [hown]
      · exact .nil
      · exact .single (by rw [Fault.node]; omega) (by rw [Fault.node]; omega)
    rw [faults_eq]
    exact hbelow.append hown (Nat.le_add_right _ _) (by omega)

/-- **The faults of a tree are in the order in which their nodes stop.** -/
theorem Conforms.ranged {t : Tree} (h : t.Conforms) :
    ∀ {o : Nat}, t.Spans o → Ranged o (o + byteSize t.text) t.faults := by
  induction h with
  | token ha =>
    intro o _
    rw [faults_nil_of_children rfl]
    exact .nil
  | @node r a b ps hk ht hf hp ih =>
    intro o hs
    have h : Is r (.node r a b ps) := ⟨rfl, .node hk ht hf hp⟩
    have hin : ∀ c ∈ (Tree.node r a b ps).children, ∀ o', c.Spans o' →
        Ranged o' (o' + byteSize c.text) c.faults := fun c hc o' hc' =>
      ih c (List.mem_filter.mp hc).1 (List.mem_filter.mp hc).2 hc'
    have hconf : ∀ c ∈ (Tree.node r a b ps).children, c.Conforms := fun c hc =>
      hp c (List.mem_filter.mp hc).1 (List.mem_filter.mp hc).2
    by_cases hlit : r = .literal
    · subst hlit
      rw [h.faults_literal]
      refine .flatMap hs.2.2 fun c hc o' hc' => ?_
      split
      · next hi =>
        have hint : Is .intLit c := ⟨hi.1, hconf c hc⟩
        rw [hint.faults_nil rfl]
        exact hint.ranged_intLit hc' rfl
      · rw [List.append_nil]
        exact hin c hc o' hc'
    · by_cases hdim : r = .dimensions
      · subst hdim
        rw [h.faults_dimensions]
        refine .flatMap hs.2.2 fun c hc o' hc' => ?_
        split
        · next hi => exact Is.ranged_intLit ⟨hi.1, hconf c hc⟩ hc' rfl
        · exact .nil
      · by_cases hvar : r = .varDecl
        · subst hvar
          exact h.ranged_varDecl hs hin
        · have hinnocent : isInnocent r = true := by simp [isInnocent, hlit, hdim, hvar]
          rw [faults_eq, ownFaults_of_isInnocent rfl hinnocent, List.append_nil]
          exact .flatMap hs.2.2 hin

/-- A fault is found at a node of the tree. -/
theorem Has.within {t : Tree} {f : Fault} (h : t.Has f) :
    f.node.Within t ∧ f.node.isNode = true := by
  obtain ⟨u, hu, hf⟩ := h
  cases hf with
  | integer _ hi hr | dimension _ hi hr =>
    exact ⟨.trans (.child hi (.self _)) hu, isNode_of_rule hr⟩
  | count ht => exact ⟨hu, isNode_of_rule ht⟩

end Tree

namespace Script

/-- **The first fault is reported.**  If no program is made of an accepted script, the failure is the
fault whose node stops before that of every other fault, and it is shown at that node: its location is
the position after what stands before the node, and its span reaches to the position after the node. -/
theorem reports_first_fault (s : Script) (t : Tree) (e : Failure) (h : s.parse = .ok t)
    (he : s.program = .error e) :
    ∃ f, e = .faulty f ∧ t.Has f ∧ (∀ g, t.Has g → g ≠ f → f.node.stop < g.node.stop) ∧
      ∃ pre post, s.source = pre ++ f.node.text ++ post ∧
        f.node.start = byteSize pre ∧ f.node.stop = byteSize (pre ++ f.node.text) ∧
        (s.diagnose e).location = some (s.locate (.after pre)) ∧
        (s.diagnose e).span =
          some ⟨s.locate (.after pre), s.locate (.after (pre ++ f.node.text))⟩ := by
  have ht := is_of_parse h
  have hspans := spans_of_parse h
  have hyields : Yields (Program.ofTree t) t.faults := ht.conforms.ordered ht.rule
  rw [program_of_parse h, lower] at he
  cases hx : Program.ofTree t with
  | ok p => rw [hx] at he; cases he
  | error f =>
    rw [hx] at he hyields
    obtain rfl : Failure.faulty f = e := Except.error.inj he
    have hhead : t.faults.head? = some f := hyields
    have hhas : t.Has f := (mem_faults t).mp (List.mem_of_mem_head? hhead)
    obtain ⟨hwithin, hnode⟩ := hhas.within
    refine ⟨f, rfl, hhas, fun g hg hne => ?_, ?_⟩
    · -- every other fault is in the tail of the sorted list
      obtain ⟨fs, hfs⟩ := List.head?_eq_some_iff.mp hhead
      have hsorted := (ht.conforms.ranged hspans).sorted
      have hg := (mem_faults t).mpr hg
      rw [hfs] at hsorted hg
      exact (List.pairwise_cons.mp hsorted).1 g ((List.mem_cons.mp hg).resolve_left hne)
    · obtain ⟨pre, post, htext, hcut⟩ := hspans.cut hwithin
      rw [Nat.zero_add] at hcut
      have hsource : s.source = pre ++ f.node.text ++ post := by
        rw [← (placed_of_parse h).1, htext, List.append_assoc]
      have hstart := hcut.start_eq hnode
      have hstop := hcut.stop_eq hnode
      rw [← byteSize_append] at hstop
      have hfrom : positionAt s.source f.node.start = .after pre := by
        rw [hsource, hstart, List.append_assoc, positionAt_append]
      have hto : positionAt s.source f.node.stop = .after (pre ++ f.node.text) := by
        rw [hsource, hstop, positionAt_append]
      refine ⟨pre, post, hsource, hstart, hstop, ?_, ?_⟩
      · show some (Location.ofPosition s.name (positionAt s.source f.node.start)) = _
        rw [hfrom]
        rfl
      · show some (Span.mk (.ofPosition s.name (positionAt s.source f.node.start))
          (.ofPosition s.name (positionAt s.source f.node.stop))) = _
        rw [hfrom, hto]
        rfl

/-- A group with two names and one value, which is too large: the value is reported, and neither the
group that holds it nor the dimension after it. -/
theorem reports_first_fault_value :
    let s := Script.ofSource "all"
      "x, y: integer = 9223372036854775808;\nz: array [18446744073709551616] of float;"
    ∃ t e, s.parse = .ok t ∧ s.program = .error e ∧
      (s.diagnose e).location = some ⟨"all", 1, 17⟩ ∧
      ∃ f, e = .faulty f ∧ t.Has f ∧ ∀ g, t.Has g → g ≠ f → f.node.stop < g.node.stop := by
  intro s
  have hok : s.parse.isOk = true := by decide +kernel
  have hfail : (match s.program with
      | .ok _ => none
      | .error e => (s.diagnose e).location) = some ⟨"all", 1, 17⟩ := by decide +kernel
  cases h : s.parse with
  | error e => rw [h] at hok; cases hok
  | ok t =>
    cases he : s.program with
    | ok p => rw [he] at hfail; cases hfail
    | error e =>
      rw [he] at hfail
      obtain ⟨f, hf, hhas, hfirst, -⟩ := reports_first_fault s t e h he
      exact ⟨t, e, rfl, rfl, hfail, f, hf, hhas, hfirst⟩

end Script

end Mt22
