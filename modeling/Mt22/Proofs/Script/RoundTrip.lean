import Mt22.Proofs.Program.DrawProgram
import Mt22.Proofs.Script.Grammar
import Mt22.Proofs.Script.Spacing

/-!
# Printed programs are read back

A well-formed program is printed as tokens with single spaces between them.  Of these tokens some
tree is grown that gives the program (`Program.drawn`), and the tree that is read has the same
tokens, so that it gives the same program (`Script.program_of_pieces`).
-/

namespace Mt22

open Mt22.Tree Mt22.Peg

namespace Script

/-- **The text of a program is read as the program.**  This holds of every well-formed program, and
of every choice of spellings for its floats. -/
theorem program_of_pieces (name : String) (p : Program) (ws : List (List Char))
    (h : p.isWellFormed = true) (hs : List.Forall₂ Piece.Spells p.pieces ws) :
    (ofTokens name ws).program = .ok p := by
  obtain ⟨t, ht, hp⟩ := Program.drawn h hs
  have hlexemes : ∀ w ∈ ws, isLexeme w = true :=
    ht.tokens ▸ ht.is.conforms.lexemes (by rw [ht.is.rule]; decide)
  have hlays : Lays ws (ofTokens name ws).source [] := by
    rw [source_ofTokens]
    exact lays_spaced hlexemes
  exact program_of_grown ht hlays hp

/-- Parentheses, a float with a separator, and an `else` after a closed `if`. -/
theorem program_of_pieces_function :
    let x : Number.Binary64 := .ofCode false 4637089135075524608
    let body : List Stmt :=
      [.declare ⟨"k", .array [2, 3] .float, none⟩,
        .ifElse (.binary .lt (.id "a") (.float x)) (.block [.ifThen (.bool true) .breakLoop])
          (.ret (some (.binary .mul (.binary .sub (.int 1) (.unary .neg (.id "a"))) (.id "b"))))]
    let p : Program := ⟨[.func ⟨"f", .void, [⟨"a", .auto, true, false⟩], some "g", body⟩]⟩
    let ws := ["f", ":", "function", "void", "(", "out", "a", ":", "auto", ")", "inherit", "g",
      "\x7b", "k", ":", "array", "[", "2", ",", "3", "]", "of", "float", ";", "if", "(", "a", "<",
      "1_0.5e1", ")", "\x7b", "if", "(", "true", ")", "break", ";", "\x7d", "else", "return", "(",
      "1", "-", "-", "a", ")", "*", "b", ";", "\x7d"].map String.toList
    p.isWellFormed = true ∧ List.Forall₂ Piece.Spells p.pieces ws ∧
      (ofTokens "a" ws).program = .ok p := by
  intro x body p ws
  have h : p.isWellFormed = true := by decide +kernel
  have hs : List.Forall₂ Piece.Spells p.pieces ws := by
    have hwords : ∀ us : List (List Char), Spelled (us.map .word) us := fun us =>
      List.forall₂_map_left_iff.mpr (List.forall₂_same.mpr fun _ _ => rfl)
    have hfloat : (Piece.float x).Spells "1_0.5e1".toList := by
      have hexponent : Token.IsExponent "e1".toList :=
        ⟨'e', [], "1".toList, rfl, .inl rfl, .inl rfl, by decide, by decide⟩
      refine ⟨.inl ⟨"1_0".toList, ".5".toList, "e1".toList, rfl, by decide, ?_, .inr hexponent⟩,
        by decide +kernel⟩
      exact ⟨"5".toList, rfl, by decide⟩
    have hp : p.pieces = (ws.take 28).map .word ++ .float x :: (ws.drop 29).map .word := rfl
    have hws : ws = ws.take 28 ++ "1_0.5e1".toList :: ws.drop 29 := rfl
    rw [hp, hws]
    exact List.rel_append (hwords _) (.cons hfloat (hwords _))
  exact ⟨h, hs, program_of_pieces "a" p ws h hs⟩

end Script

end Mt22
