import Mt22.Proofs.Command.Loading
import Mt22.Proofs.Json.Squeeze

/-!
# The JSON of built programs

`build` writes its JSON with an item on every line, for a person to read.  Less its white space this
is an array of objects, each with the name of a file and the compact JSON of the program that is made
of it (`built_json_squeezed`).  Scripts of which no program is made are left out, and the others stay
in the order of loading.
-/

namespace Mt22.Command

open Mt22.Script

/-- The programs that are made of scripts, each with the name of its file. -/
def builtOf (scripts : List Script) : List BuiltFile :=
  scripts.filterMap fun s => s.program.toOption.map fun p => ⟨s.name, p⟩

/-- A run of `build` adds the programs of the scripts to those it has. -/
theorem Building.built_foldl (scripts : List Script) (b : Building) :
    ((scripts.map fun s => (s, s.program.mapError s.diagnose)).foldl step b).built =
      b.built ++ builtOf scripts := by
  induction scripts generalizing b with
  | nil => exact (List.append_nil _).symm
  | cons s scripts ih =>
    rw [List.map_cons, List.foldl_cons, ih]
    unfold builtOf
    rw [List.filterMap_cons]
    cases s.program with
    | ok p => exact List.append_assoc _ _ _
    | error e => rfl

theorem Building.built_ofScripts (scripts : List Script) :
    (ofScripts scripts).built = builtOf scripts := by
  rw [ofScripts, zip_lowerAll, built_foldl]
  rfl

/-- A program and the name of its file, without any white space. -/
def builtObject (file : String) (p : Program) : String :=
  "\x7b\"file\":" ++ Json.quote file ++ ",\"program\":" ++ p.toJson.compact ++ "\x7d"

/-- Programs and the names of their files, without any white space. -/
def builtArray (built : List BuiltFile) : String :=
  "[" ++ ",".intercalate (built.map fun b => builtObject b.file b.program) ++ "]"

theorem compact_toJson (b : BuiltFile) : b.toJson.compact = builtObject b.file b.program := by
  have hfile : (Json.quote "file").toList = "\"file\"".toList := by decide
  have hprogram : (Json.quote "program").toList = "\"program\"".toList := by decide
  have hname : (Json.str b.file).compact = Json.quote b.file := rfl
  rw [BuiltFile.toJson, ← String.toList_inj, Json.toList_compact_obj]
  simp [Json.member, builtObject, hfile, hprogram, hname]

theorem compact_built (built : List BuiltFile) :
    (Json.arr (built.map BuiltFile.toJson)).compact = builtArray built := by
  rw [Json.compact, Json.compactItems_eq_map, List.map_map, builtArray]
  simp only [Function.comp_def, compact_toJson]

/-- What `build` writes is squeezed to the array. -/
theorem squeezes_output (scripts : List Script) :
    Json.Squeezes ((Building.ofScripts scripts).output .json).toList
      (builtArray (builtOf scripts)).toList := by
  rw [Building.output, Building.built_ofScripts, ← compact_built]
  exact Json.squeezes_pretty _

theorem toList_unlines_singleton (line : String) : (unlines [line]).toList = line.toList ++ ['\n'] := by
  simp [unlines, String.join]

/-- **The JSON of built programs, less its white space, is compact JSON**: an array of an object for
each script of which a program is made, in the order of loading.  So it is on the standard output,
or else in the file that is named for it, unless nothing can be written there. -/
theorem built_json_squeezed (fs : FileSystem) (args files : List String) (v : Nat)
    (output : Option String) (sss : List (List Script))
    (hparse : Invocation.parse args = .run v (.build .json output) files)
    (hload : List.Forall₂ (Loads fs) files sss) :
    (output = none →
      Json.squeezed (run args fs).stdout = builtArray (builtOf sss.flatten)) ∧
    ∀ path, output = some path →
      (∃ text names, (run args fs).written = some (path, text) ∧ fs.Leads path names ∧
        (run args fs).files.look names = some (some text.toUTF8) ∧
        Json.squeezed text = builtArray (builtOf sss.flatten)) ∨
      ∀ bytes, ∃ cause, fs.write path bytes = .error cause := by
  obtain ⟨hprinted, hwritten⟩ := run_build hparse hload
  have htext := squeezes_output sss.flatten
  refine ⟨fun hnone => ?_, fun path hsome => ?_⟩
  · have hline := htext.append (Json.Squeezes.blank (c := '\n') (by decide) (by decide))
    rw [List.append_nil, ← toList_unlines_singleton, ← hprinted hnone] at hline
    exact hline.squeezed_eq
  · rcases hwritten path hsome with ⟨names, hw, hleads, hlook⟩ | hfail
    · exact .inl ⟨_, names, hw, hleads, hlook, htext.squeezed_eq⟩
    · exact .inr hfail

/-- A script with blanks, quotes and brackets in a string, and one of which no program is made. -/
def quotedScript : FileSystem :=
  ⟨.folder [("a b", .file "x: string = \"[ \\\" ] \";".toUTF8), ("c", .file "x, y: integer = 1;".toUTF8)],
    [], []⟩

theorem built_json_squeezed_quoted :
    let args := ["build", "-f", "json", "a b", "c"]
    Json.squeezed (run args quotedScript).stdout =
      "[\x7b\"file\":\"a b\",\"program\":\x7b\"decls\":[\x7b\"Var\":\x7b\"name\":\"x\",\"ty\":\"String\"," ++
      "\"init\":\x7b\"StringLit\":\"[ \\\\\\\" ] \"\x7d\x7d\x7d]\x7d\x7d]" := by
  intro args
  have ha : Loads quotedScript "a b" [⟨"a b", "a b", "x: string = \"[ \\\" ] \";"⟩] :=
    .file (by decide) ⟨by decide +kernel, rfl, by decide +kernel⟩
  have hc : Loads quotedScript "c" [⟨"c", "c", "x, y: integer = 1;"⟩] :=
    .file (by decide) ⟨by decide +kernel, rfl, by decide +kernel⟩
  have hsqueezed := (built_json_squeezed quotedScript args ["a b", "c"] 0 none _ (by decide +kernel)
    (.cons ha (.cons hc .nil))).1 rfl
  rw [hsqueezed]
  decide +kernel

end Mt22.Command
