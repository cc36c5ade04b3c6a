import Mt22.Proofs.Parsing.Spell
import Mt22.Proofs.Script.Accept

/-!
# Scripts that are read

A script in which the tokens of a program are laid out is accepted, and what is read is that program
up to trivia and offsets (`Script.parse_of_lays`).  Conversely the tree of an accepted script is its
whole text, and its leaves are placed in it (`Script.placed_of_parse`).
-/

namespace Mt22

open Mt22.Tree Mt22.Trivia Mt22.Peg

/-- The end of the text leaves a node without tokens. -/
theorem Tree.Is.eoi_tokens {t : Tree} (h : Is .eoi t) : t.tokens = [] := by
  rw [h.tokens_eq rfl, Fits.finish_iff.mp (h.fits (by decide)).1]
  rfl

theorem reads_eoi {t : Tree} (h : Is .eoi t) : Reads (.call .eoi) [t] (after []) [] := by
  refine Reads.call h rfl ?_
  rw [Fits.finish_iff.mp (h.fits (by decide)).1]
  intro o
  exact ⟨[], o, [], .finish _, rfl, rfl, .nil⟩

/-- The parts of a program: declarations, and the end of the text, which has no tokens. -/
theorem Tree.Is.program_parts {t : Tree} (h : Is .program t) : ∃ ds e,
    solid t.parts = ds ++ [e] ∧ (plus (.call .declaration)).Fits ds ∧ Is .eoi e ∧
      t.tokens = tokensAll ds := by
  obtain ⟨hf, hc⟩ := h.fits (by decide)
  obtain ⟨xs, ts, hs, hx, hf⟩ := Fits.seq_iff.mp hf
  obtain rfl := Fits.start_iff.mp hx
  obtain ⟨ds, es, rfl, hds, hes⟩ := Fits.seq_iff.mp hf
  obtain ⟨e, rfl, he⟩ := Fits.call_iff.mp hes
  rw [List.nil_append] at hs
  have hmem : e ∈ solid t.parts := by simp [hs]
  have heoi : Is .eoi e := ⟨he, hc e (List.mem_filter.mp hmem).1 (isNode_of_rule he)⟩
  refine ⟨ds, e, hs, hds, heoi, ?_⟩
  rw [h.tokens_eq rfl, hs, tokensAll_append, tokensAll_cons, heoi.eoi_tokens]
  simp

/-- **A program whose tokens are laid out in a script is read from it.** -/
theorem Script.parse_of_lays {s : Script} {t : Tree} (ht : Is .program t) (hn : t.Nearest)
    (hl : Lays t.tokens s.source []) : ∃ u, s.parse = .ok u ∧ u.tokens = t.tokens ∧ Alike u t := by
  obtain ⟨-, hc⟩ := ht.fits (by decide)
  obtain ⟨ds, e, hs, hds, heoi, htok⟩ := ht.program_parts
  have hmem : ∀ x ∈ solid t.parts, x ∈ t.parts := fun x hx => (List.mem_filter.mp hx).1
  have hdecls : Predicts (plus (.call .declaration)) [.finish] :=
    predicts_of_isDecided Rule.apart (by decide)
  have hlaid : Laid ds s.source [] := by
    cases hn with
    | @node r a b ps hstray hnear =>
      have hs : solid ps = ds ++ [e] := hs
      refine ⟨htok ▸ hl, fun _ => by decide, ?_, ?_⟩
      · rw [hs] at hstray
        exact hstray.left
      · intro d hd hnode
        have hd := hmem d (by simp [parts, hs, hd])
        exact (hc d hd hnode).complete (hnear d hd hnode)
  have hread := (hdecls ds s.source [] hds hlaid (by decide)).seq (reads_eoi heoi)
  obtain ⟨us, o', s', hends, -, htoks, hnod⟩ := hread (Mode.normal.skip ⟨0, s.source⟩).2.offset
  have hbody := (Ends.start (m := .normal) ⟨0, s.source⟩).seq_some hends
  have hcall : Ends .normal (.call .program) (.ofText s.source) (some
      ([.node .program 0 o' ((Mode.normal.skip ⟨0, s.source⟩).1 ++ us)], ⟨o', s'⟩)) :=
    Ends.call_some (m := .normal) (r := .program) hbody
  refine ⟨_, parse_eq_ok_iff.mpr ⟨_, _, hcall.matches, rfl⟩, ?_, .mk ht.rule.symm (fun h => by cases h) ?_⟩
  · rw [tokens_node (by decide), tokensAll_append, tokensAll_skip, htoks, htok, tokensAll_append,
      tokensAll_cons, heoi.eoi_tokens]
    simp
  · show List.Forall₂ Alike (nodes ((Mode.normal.skip ⟨0, s.source⟩).1 ++ us)) (nodes t.parts)
    rw [← nodes_solid t.parts, hs, nodes_append, nodes_skip]
    exact hnod

namespace Script

/-- What was read of an accepted script: declarations, with trivia before and after them, up to the
end of the text. -/
theorem readings_of_parse {s : Script} {t : Tree} (h : s.parse = .ok t) : ∃ ds c o,
    Matches .normal (plus (.call .declaration)) (Mode.normal.skip (.ofText s.source)).2 ds c ∧
    (Mode.normal.skip c).2 = ⟨o, []⟩ ∧
    t = .node .program 0 o ((Mode.normal.skip (.ofText s.source)).1 ++
      (ds ++ ((Mode.normal.skip c).1 ++ [.node .eoi o o []]))) := by
  obtain ⟨ts, c, hreads, hnodes⟩ := parse_eq_ok_iff.mp h
  cases hreads with
  | @call _ _ _ _ parts hbody =>
    obtain rfl : .node .program 0 c.offset parts = t := (List.cons.inj hnodes).1
    cases hbody with
    | seq hstart hrest =>
      cases hstart
      cases hrest with
      | @seq _ _ _ _ c2 _ ds _ hdecls heoi =>
        cases heoi with
        | call hfinish =>
          cases hfinish with
          | finish hnil =>
            refine ⟨ds, c2, (Mode.normal.skip c2).2.offset, hdecls, ?_, ?_⟩
            · rw [← hnil]
              rfl
            · rw [List.nil_append, List.append_assoc]
              rfl

/-- **The tree of an accepted script is its whole text**, in which its leaves are placed. -/
theorem placed_of_parse {s : Script} {t : Tree} (h : s.parse = .ok t) :
    t.text = s.source ∧ Placed t.leaves [] := by
  obtain ⟨ds, c, o, hreads, hc, rfl⟩ := readings_of_parse h
  have hend : textAll ((Mode.normal.skip c).1 ++ [.node .eoi o o []]) ++ [] = c.rest := by
    have htext := Mode.normal.textAll_skip c
    rw [hc] at htext
    rw [textAll_append, List.append_assoc]
    exact htext
  have hdecls : textAll (ds ++ ((Mode.normal.skip c).1 ++ [.node .eoi o o []])) ++ [] =
      (Mode.normal.skip (.ofText s.source)).2.rest := by
    rw [textAll_append, List.append_assoc, hend, hreads.textAll_rest]
  constructor
  · rw [List.append_nil] at hdecls
    rw [Tree.text, textAll_append, hdecls, Mode.textAll_skip]
    rfl
  · rw [leaves_node (by decide)]
    refine placed_leavesAll_append (placed_skip _) (placed_leavesAll_append ?_ ?_ hend) hdecls
    · exact placed_of_matches hreads rfl rfl (by decide) (.inl (piece?_after s.source))
    · have hgap := placed_skip c
      rw [hc] at hgap
      exact placed_leavesAll_append hgap trivial rfl

/-- The tokens of an accepted script are laid out in it. -/
theorem lays_of_parse {s : Script} {t : Tree} (h : s.parse = .ok t) : Lays t.tokens s.source [] := by
  obtain ⟨htext, hplaced⟩ := placed_of_parse h
  have hlays := hplaced.lays
  rwa [tokensAll_leaves, textAll_leaves, List.append_nil, htext] at hlays

end Script

end Mt22
