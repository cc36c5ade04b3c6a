import Mt22.Proofs.Program.Json
import Mt22.Proofs.Script.Lexical

/-!
# The JSON of a script tells its program

The compact text of a JSON value tells all that the value shows, the floats of a script have no
sign, and a program with such floats is known by what its JSON shows.  So a program can be recovered
from the compact text of its JSON (`Script.json_recovers_program`).
-/

namespace Mt22.Script

theorem exprs_unsigned {s : Script} {p : Program} (h : s.program = .ok p) :
    ∀ e ∈ p.exprs, e.Unsigned := by
  intro e he
  have hlex := exprs_lexical h e he
  cases e with
  | float value => exact hlex
  | _ => trivial

theorem program_eq_of_compact {s t : Script} {p q : Program} (hs : s.program = .ok p)
    (ht : t.program = .ok q) (h : p.toJson.compact = q.toJson.compact) : p = q :=
  Program.eq_of_shown_toJson (exprs_unsigned hs) (exprs_unsigned ht) (Json.compact_eq_iff.mp h)

/-- **JSON is a faithful encoding of the programs of scripts**: equal texts are of equal programs,
and some decoder gives for each text the program that has it, and nothing for a text that no program
of a script has. -/
theorem json_recovers_program :
    (∀ (s t : Script) (p q : Program), s.program = .ok p → t.program = .ok q →
      p.toJson.compact = q.toJson.compact → p = q) ∧
    ∃ decode : String → Option Program, ∀ text p,
      decode text = some p ↔ ∃ s : Script, s.program = .ok p ∧ p.toJson.compact = text := by
  refine ⟨fun s t p q hs ht h => program_eq_of_compact hs ht h, ?_⟩
  classical
  refine ⟨fun text => if h : ∃ p, ∃ s : Script, s.program = .ok p ∧ p.toJson.compact = text
    then some h.choose else none, fun text p => ?_⟩
  dsimp only
  constructor
  · intro h
    split at h
    · next hex =>
      obtain rfl := Option.some.inj h
      exact hex.choose_spec
    · cases h
  · rintro ⟨s, hs, htext⟩
    have hex : ∃ p, ∃ s : Script, s.program = .ok p ∧ p.toJson.compact = text := ⟨p, s, hs, htext⟩
    obtain ⟨t, ht, htext'⟩ := hex.choose_spec
    rw [dif_pos hex, program_eq_of_compact ht hs (htext'.trans htext.symm)]

/-- Two scripts with one text, in which `null` stands once for a number beyond the range and once
for a missing value. -/
theorem json_recovers_program_null :
    let s := Script.ofSource "a" "x:float=1e999;y:float;"
    let t := Script.ofSource "b" "/* y */ x : float = .5e400 ; y : float ;"
    let text := "\x7b\"decls\":[" ++
      "\x7b\"Var\":\x7b\"name\":\"x\",\"ty\":\"Float\",\"init\":\x7b\"FloatLit\":null\x7d\x7d\x7d," ++
      "\x7b\"Var\":\x7b\"name\":\"y\",\"ty\":\"Float\",\"init\":null\x7d\x7d]\x7d"
    ∃ p q, s.program = .ok p ∧ t.program = .ok q ∧ p.toJson.compact = text ∧
      q.toJson.compact = text ∧ p = q := by
  intro s t text
  have hs : s.program.toOption.map (fun p => p.toJson.compact) = some text := by decide +kernel
  have ht : t.program.toOption.map (fun p => p.toJson.compact) = some text := by decide +kernel
  obtain ⟨p, hp, htext⟩ := exists_program hs
  obtain ⟨q, hq, htext'⟩ := exists_program ht
  exact ⟨p, q, hp, hq, htext, htext',
    json_recovers_program.1 s t p q hp hq (htext.trans htext'.symm)⟩

end Mt22.Script
