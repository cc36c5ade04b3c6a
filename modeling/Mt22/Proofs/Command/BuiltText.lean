import Mt22.Proofs.Command.BuiltJson

/-!
# The text of built programs

As text, `build` shows programs one after the other, each under a line with the name of its file
(`labelledText`).  It counts the programs that were made and not the scripts that were given: if just
one program was made, its label is left out, however many scripts failed beside it.  So a run is
labelled throughout exactly if the number of its programs is not one (`built_text_labelled`).
-/

namespace Mt22.Command

open Mt22.Script

/-- Programs, each under a line with the name of its file. -/
def labelledText (built : List BuiltFile) : String :=
  "\n".intercalate (built.map fun b => "// " ++ b.file ++ "\n" ++ b.program.dump)

theorem labelledText_singleton (b : BuiltFile) :
    labelledText [b] = "// " ++ b.file ++ "\n" ++ b.program.dump := rfl

/-- A label adds to a dump. -/
theorem labelledText_ne_dump (b : BuiltFile) : b.program.dump ≠ labelledText [b] := by
  intro h
  have hlength := congrArg String.length h
  rw [labelledText_singleton] at hlength
  simp only [String.length_append] at hlength
  have hslashes : "// ".length = 3 := rfl
  omega

/-- How built programs are shown: each under its label, but one alone without. -/
structure ShowsBuilt (built : List BuiltFile) (text : String) : Prop where
  labelled_iff : text = labelledText built ↔ built.length ≠ 1
  alone : ∀ file p, built = [⟨file, p⟩] → text = p.dump

theorem showsBuilt_text (built : List BuiltFile) : ShowsBuilt built (BuiltFile.text built) := by
  match built with
  | [] => exact ⟨iff_of_true rfl (by simp), by simp⟩
  | [b] =>
    refine ⟨iff_of_false (labelledText_ne_dump b) (by simp), ?_⟩
    rintro _ _ ⟨⟩
    rfl
  | _ :: _ :: _ => exact ⟨iff_of_true rfl (by simp), by simp⟩

theorem showsBuilt_output (scripts : List Script) :
    ShowsBuilt (builtOf scripts) ((Building.ofScripts scripts).output .text) := by
  rw [Building.output, Building.built_ofScripts]
  exact showsBuilt_text _

/-- **Programs are shown under the names of their files unless there is just one.**  Scripts of which
no program is made are left out, and the others stay in the order of loading. -/
theorem built_text_labelled (fs : FileSystem) (args files : List String) (v : Nat)
    (output : Option String) (sss : List (List Script))
    (hparse : Invocation.parse args = .run v (.build .text output) files)
    (hload : List.Forall₂ (Loads fs) files sss) :
    (output = none → ∃ text, (run args fs).stdout = text ++ "\n" ∧
      ShowsBuilt (builtOf sss.flatten) text) ∧
    ∀ path, output = some path →
      (∃ text names, (run args fs).written = some (path, text) ∧ fs.Leads path names ∧
        (run args fs).files.look names = some (some text.toUTF8) ∧
        ShowsBuilt (builtOf sss.flatten) text) ∨
      ∀ bytes, ∃ cause, fs.write path bytes = .error cause := by
  obtain ⟨hprinted, hwritten⟩ := run_build hparse hload
  have hshows := showsBuilt_output sss.flatten
  refine ⟨fun hnone => ⟨_, ?_, hshows⟩, fun path hsome => ?_⟩
  · rw [hprinted hnone, ← String.toList_inj, toList_unlines_singleton, String.toList_append]
    rfl
  rcases hwritten path hsome with ⟨names, hw, hleads, hlook⟩ | hfail
  · exact .inl ⟨_, names, hw, hleads, hlook, hshows⟩
  · exact .inr hfail

/-- Two scripts of which programs are made, and between them one of which none is. -/
def mixedScripts : FileSystem :=
  ⟨.folder [("a", .file "x: integer;".toUTF8), ("b", .file "x, y: integer = 1;".toUTF8),
    ("c", .file "y: float;".toUTF8)], [], []⟩

theorem loads_mixedScripts :
    Loads mixedScripts "a" [⟨"a", "a", "x: integer;"⟩] ∧
      Loads mixedScripts "b" [⟨"b", "b", "x, y: integer = 1;"⟩] ∧
      Loads mixedScripts "c" [⟨"c", "c", "y: float;"⟩] :=
  ⟨.file (by decide) ⟨by decide +kernel, rfl, by decide +kernel⟩,
    .file (by decide) ⟨by decide +kernel, rfl, by decide +kernel⟩,
    .file (by decide) ⟨by decide +kernel, rfl, by decide +kernel⟩⟩

theorem built_text_labelled_mixed :
    (run ["build", "a", "b", "c"] mixedScripts).stdout =
      "// a\nProgram([\n\tVarDecl(x, IntegerType)\n])\n" ++
      "// c\nProgram([\n\tVarDecl(y, FloatType)\n])\n" := by
  obtain ⟨ha, hb, hc⟩ := loads_mixedScripts
  obtain ⟨text, hprinted, hshows⟩ := (built_text_labelled mixedScripts ["build", "a", "b", "c"]
    ["a", "b", "c"] 0 none _ (by decide +kernel) (.cons ha (.cons hb (.cons hc .nil)))).1 rfl
  rw [hprinted, hshows.labelled_iff.mpr (by decide +kernel)]
  decide +kernel

/-- Of two scripts one fails, and the program of the other is shown without the name of its file. -/
theorem built_text_unlabelled : ∃ sss, List.Forall₂ (Loads mixedScripts) ["a", "b"] sss ∧
    sss.flatten.length = 2 ∧
    (run ["build", "a", "b"] mixedScripts).stdout =
      "Program([\n\tVarDecl(x, IntegerType)\n])\n" ∧
    labelledText (builtOf sss.flatten) = "// a\nProgram([\n\tVarDecl(x, IntegerType)\n])" ∧
    (run ["build", "a", "b"] mixedScripts).stdout ≠ labelledText (builtOf sss.flatten) ++ "\n" := by
  obtain ⟨ha, hb, -⟩ := loads_mixedScripts
  exact ⟨_, .cons ha (.cons hb .nil), rfl, by decide +kernel, by decide +kernel, by decide +kernel⟩

end Mt22.Command
