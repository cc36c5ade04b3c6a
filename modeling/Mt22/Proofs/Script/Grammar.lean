import Mt22.Proofs.Parsing.Derives
import Mt22.Proofs.Script.Reading

/-!
# Scripts and the grammar

The grammar is read with ordered choices and repetitions that never give back what they took.  Even
so the accepted scripts are those of the grammar as an ordinary one (`Script.accepts_derived`): every
sequence of tokens that a program derives is accepted with spaces between the tokens, and what is
accepted was read into tokens that a program derives.
-/

namespace Mt22

open Mt22.Tree Mt22.Trivia Mt22.Peg

namespace Script

/-- The script with these tokens, and a space between each two of them. -/
def ofTokens (name : String) (ws : List (List Char)) : Script :=
  ofSource name (String.ofList ([' '].intercalate ws))

theorem source_ofTokens (name : String) (ws : List (List Char)) :
    (ofTokens name ws).source = [' '].intercalate ws := String.toList_ofList

/-- A program is accepted when its tokens are written with spaces between them. -/
theorem parse_ofTokens (name : String) {ws : List (List Char)}
    (h : (Peg.call .program).Derives ws) :
    ∃ t, (ofTokens name ws).parse = .ok t ∧ t.tokens = ws := by
  obtain ⟨t, ht, hn, rfl⟩ := h.exists_tree
  have hlays : Lays t.tokens (ofTokens name t.tokens).source [] := by
    rw [source_ofTokens]
    exact lays_spaced (ht.conforms.lexemes (by rw [ht.rule]; decide))
  obtain ⟨u, hu, htok, -⟩ := parse_of_lays ht hn hlays
  exact ⟨u, hu, htok⟩

/-- **The accepted scripts are those of the grammar.**  Every sequence of tokens that a program
derives is accepted with spaces between the tokens, and read into these tokens; and a script that is
accepted consists of tokens, with trivia between them, that a program derives. -/
theorem accepts_derived :
    (∀ (name : String) (ws : List (List Char)), (Peg.call .program).Derives ws →
      ∃ t, (ofTokens name ws).parse = .ok t ∧ t.tokens = ws) ∧
    ∀ (s : Script) (t : Tree), s.parse = .ok t →
      Lays t.tokens s.source [] ∧ (Peg.call .program).Derives t.tokens := by
  refine ⟨fun name ws h => parse_ofTokens name h, ?_⟩
  intro s t h
  have ht := is_of_parse h
  exact ⟨lays_of_parse h, derives_of_conforms ht.conforms ht.rule (by decide)⟩

/-- A declaration of one variable. -/
theorem accepts_derived_variable :
    (Peg.call .program).Derives (["x", ":", "integer", ";"].map String.toList) ∧
    ∃ t, (ofTokens "a" (["x", ":", "integer", ";"].map String.toList)).parse = .ok t ∧
      t.tokens = ["x", ":", "integer", ";"].map String.toList := by
  have h : (Peg.call .program).Derives (["x", ":", "integer", ";"].map String.toList) := by
    have hname : (Peg.call .nameList).Derives ["x".toList] :=
      .rule rfl (.seq (.token (r := .identifier) (by decide)
        (show Token.isName "x".toList = true by decide +kernel)) .nil)
    have htype : (Peg.call .varType).Derives ["integer".toList] :=
      .rule rfl (.left (.rule rfl (.left (.rule rfl (.seq .ahead (.text _))))))
    have hdecl : (Peg.call .varDecl).Derives (["x", ":", "integer", ";"].map String.toList) :=
      .rule rfl (hname.seq (.seq (.text _) (htype.seq (.seq .without (.text _)))))
    have hdecl' : (Peg.call .declaration).Derives (["x", ":", "integer", ";"].map String.toList) :=
      .rule rfl (.right hdecl)
    have heoi : (Peg.call .eoi).Derives [] := .rule rfl .finish
    exact .rule rfl (Derives.start.seq ((hdecl'.seq .nil).seq heoi))
  exact ⟨h, accepts_derived.1 "a" _ h⟩

end Script

end Mt22
