import Mt22.Program.Stats
import Mt22.Proofs.Program.OfDecl
import Mt22.Proofs.Script.Spacing
import Mt22.Proofs.Tree.Grow

/-!
# Scripts one after the other

Two scripts with a line feed between them are a script whose declarations are those of both
(`Script.program_join`).  The end of the first text ends nothing in it but a line comment, which the
line feed ends as well.
-/

namespace Mt22

open Mt22.Tree Mt22.Trivia Mt22.Peg

/-! ### Counts -/

namespace Stats

theorem zero_add (a : Stats) : zero + a = a := by
  show Stats.mk _ _ _ _ _ = a
  simp [zero]

theorem add_assoc (a b c : Stats) : a + b + c = a + (b + c) := by
  show Stats.mk _ _ _ _ _ = Stats.mk _ _ _ _ _
  simp only [Stats.mk.injEq]
  exact ⟨Nat.add_assoc .., Nat.add_assoc .., Nat.add_assoc .., Nat.add_assoc .., Nat.add_assoc ..⟩

end Stats

/-- The counts of declarations add up. -/
theorem Program.stats_append (ds es : List Decl) :
    Program.stats ⟨ds ++ es⟩ = Program.stats ⟨ds⟩ + Program.stats ⟨es⟩ := by
  induction ds with
  | nil => exact (Stats.zero_add _).symm
  | cons d ds ih =>
    show d.stats + Program.stats ⟨ds ++ es⟩ = d.stats + Program.stats ⟨ds⟩ + Program.stats ⟨es⟩
    rw [ih, Stats.add_assoc]

/-! ### Lists of declarations -/

/-- The declarations of a program. -/
theorem Tree.Grown.decls {t : Tree} {ws : List (List Char)} (h : Grown .program t ws) : ∃ ds e,
    t.children = ds ++ [e] ∧ e.rule? = some .eoi ∧ Grows (plus (.call .declaration)) ds ws := by
  obtain ⟨ds, e, hs, hfits, he, htok⟩ := h.is.program_parts
  have hmem : ∀ d ∈ ds, d ∈ solid t.parts := fun d hd => by simp [hs, hd]
  refine ⟨ds, e, ?_, he.rule, hfits, htok.symm.trans h.tokens, ?_, ?_⟩
  · rw [children, ← nodes_solid, hs, nodes_append, nodes_cons_of_rule he.rule, nodes_nil,
      nodes_of_rule hfits.rule_of_plus]
  · have := solid_solid t.parts
    rw [hs, solid_append] at this
    exact (List.append_inj' this (by cases e <;> first | rfl | cases he.rule)).1
  · intro d hd hn
    have hd := (List.mem_filter.mp (hmem d hd)).1
    refine ⟨(h.is.fits (by decide)).2 d hd hn, ?_⟩
    cases h.nearest with
    | node _ hparts => exact hparts d hd hn

namespace Script

/-- A script with a program, read with every `else` at the nearest `if`. -/
theorem exists_grown_of_program {s : Script} {p : Program} (h : s.program = .ok p) : ∃ t v,
    s.parse = .ok t ∧ Grown .program v t.tokens ∧ Program.ofTree v = .ok p := by
  obtain ⟨t, ht, hp⟩ := program_eq_ok_iff.mp h
  obtain ⟨v, hv, halike⟩ := exists_grown ht
  exact ⟨t, v, ht, hv, (Program.ofTree_alike halike).symm.eq_ok hp⟩

/-- The tokens of an accepted script are laid out before a line feed and any text after it. -/
theorem lays_of_parse_append {s : Script} {t : Tree} (h : s.parse = .ok t) (z : List Char) :
    Lays t.tokens (s.source ++ '\n' :: z) ('\n' :: z) := by
  have ht := is_of_parse h
  obtain ⟨htext, hplaced⟩ := placed_of_parse h
  have hlays := hplaced.lays_onto (c := '\n') (z := z)
    (by rw [tokensAll_leaves]; exact ht.conforms.lexemes (by rw [ht.rule]; decide))
    (by rw [tokensAll_leaves]; exact ht.unslashed (by decide)) rfl ?_
  · rwa [tokensAll_leaves, textAll_leaves, htext] at hlays
  · -- the trivia at the end may be a line comment, which the line feed ends
    intro v hv
    have hrun := run_of_skip (hplaced.skip_last hv)
    have hafter := after_blank (hrun.blank_append (c := '\n') rfl) z
    rw [List.append_assoc] at hafter
    exact hafter.trans (after_cons_of_isSpace rfl z).symm

/-- The declarations that a program is made of, group by group. -/
theorem decls_of_grown {t : Tree} {ws : List (List Char)} {p : Program} (h : Grown .program t ws)
    (hp : Program.ofTree t = .ok p) : ∃ ds ps, Grows (plus (.call .declaration)) ds ws ∧
      ds.mapM Decl.ofTree = .ok ps ∧ p = ⟨ps.flatten⟩ := by
  obtain ⟨ds, e, hc, he, hds⟩ := h.decls
  rw [Program.ofTree_eq hc hds.fits.rule_of_plus he] at hp
  cases hm : ds.mapM Decl.ofTree with
  | error f => rw [hm] at hp; cases hp
  | ok ps =>
    rw [hm] at hp
    exact ⟨ds, ps, hds, hm, (Except.ok.inj hp).symm⟩

/-- **A script after another.**  If programs can be made of two scripts, one can be made of both with
a line feed between them: its declarations are those of the first and then those of the second, and
its counts are the sums of theirs. -/
theorem program_join (s₁ s₂ s : Script) (p₁ p₂ : Program) (h₁ : s₁.program = .ok p₁)
    (h₂ : s₂.program = .ok p₂) (hs : s.source = s₁.source ++ '\n' :: s₂.source) :
    ∃ p, s.program = .ok p ∧ p.decls = p₁.decls ++ p₂.decls ∧ p.stats = p₁.stats + p₂.stats := by
  obtain ⟨t₁, v₁, ht₁, hv₁, hp₁⟩ := exists_grown_of_program h₁
  obtain ⟨t₂, v₂, ht₂, hv₂, hp₂⟩ := exists_grown_of_program h₂
  obtain ⟨ds, ps, hds, hps, rfl⟩ := decls_of_grown hv₁ hp₁
  obtain ⟨es, qs, hes, hqs, rfl⟩ := decls_of_grown hv₂ hp₂
  have hlays : Lays (t₁.tokens ++ t₂.tokens) s.source [] := by
    rw [hs]
    refine lays_append.mpr ⟨_, lays_of_parse_append ht₁ s₂.source, ?_⟩
    exact lays_congr (after_cons_of_isSpace rfl _).symm rfl (lays_of_parse ht₂)
  have hjoin := hds.plus_append hes
  have hrule := hjoin.fits.rule_of_plus
  have hprogram : Program.ofTree (.node .program 0 0 (ds ++ es ++ [.node .eoi 0 0 []])) =
      .ok ⟨(ps ++ qs).flatten⟩ := by
    rw [Program.ofTree_eq (children_program hrule) hrule rfl, List.mapM_append, hps, hqs]
    rfl
  refine ⟨⟨(ps ++ qs).flatten⟩, program_of_grown (.program hjoin) hlays hprogram,
    List.flatten_append, ?_⟩
  rw [List.flatten_append]
  exact Program.stats_append _ _

/-- The first text ends within a comment, which does not take the second with it. -/
theorem program_join_comment : ∃ p₁ p₂ p,
    (ofSource "a" "x:auto;// end").program = .ok p₁ ∧
    (ofSource "b" "f:function void()\x7bx=1;\x7d").program = .ok p₂ ∧
    (ofSource "c" "x:auto;// end\nf:function void()\x7bx=1;\x7d").program = .ok p ∧
    p.decls = p₁.decls ++ p₂.decls ∧ p.stats = p₁.stats + p₂.stats := by
  have hok₁ : (ofSource "a" "x:auto;// end").program.isOk = true := by decide +kernel
  have hok₂ : (ofSource "b" "f:function void()\x7bx=1;\x7d").program.isOk = true := by decide +kernel
  cases h₁ : (ofSource "a" "x:auto;// end").program with
  | error e => rw [h₁] at hok₁; cases hok₁
  | ok p₁ =>
    cases h₂ : (ofSource "b" "f:function void()\x7bx=1;\x7d").program with
    | error e => rw [h₂] at hok₂; cases hok₂
    | ok p₂ =>
      obtain ⟨p, hp, hdecls, hstats⟩ := program_join _ _
        (ofSource "c" "x:auto;// end\nf:function void()\x7bx=1;\x7d") p₁ p₂ h₁ h₂ (by decide)
      exact ⟨p₁, p₂, p, rfl, rfl, hp, hdecls, hstats⟩

end Script

end Mt22
