import Mt22.Command.Table
import Mt22.Program.Dump
import Mt22.Program.Json
import Mt22.Script.Basic

/-!
# What commands print

`build` prints the programs that were made (`BuiltFile`), `check` a summary with a row for each
script (`FileReport`).
-/

namespace Mt22

/-- A program that was made, and the name of its file. -/
structure BuiltFile where
  file : String
  program : Program

namespace BuiltFile

/-- Dumps of programs.  One alone is shown as it is; several, or none, are shown one after the
other, each under the name of its file. -/
def text : List BuiltFile → String
  | [b] => b.program.dump
  | built => "\n".intercalate (built.map fun b => "// " ++ b.file ++ "\n" ++ b.program.dump)

/-- A program and the name of its file as JSON. -/
def toJson (b : BuiltFile) : Json :=
  .obj [("file", .str b.file), ("program", b.program.toJson)]

end BuiltFile

/-- Whether a program was made of a script. -/
inductive Status where
  | ok | failed
deriving DecidableEq

def Status.name : Status → String
  | ok => "ok"
  | failed => "failed"

/-- A row of a summary: the counts of the program that was made of a script, or why none was. -/
structure FileReport where
  file : String
  status : Status
  stats : Option Stats
  error : Option String
deriving DecidableEq

namespace FileReport

/-- The row of a script of which a program was made. -/
def lowered (file : String) (p : Program) : FileReport := ⟨file, .ok, some p.stats, none⟩

/-- The row of a script of which none was made. -/
def failed (file : String) (d : Diagnostic) : FileReport := ⟨file, .failed, none, some d.report⟩

/-- A row as JSON, without the fields that it has not. -/
def toJson (r : FileReport) : Json :=
  .obj ([("file", .str r.file), ("status", .str r.status.name)] ++
    (r.stats.toList.map fun s => ("stats", s.toJson)) ++
    r.error.toList.map fun e => ("error", .str e))

/-- The header of a table. -/
def header : List String :=
  ["File", "Functions", "Globals", "Params", "Locals", "Statements", "Status"]

/-- A row of a table, with a dash for every count that it has not. -/
def cells (r : FileReport) : List String :=
  let counts := match r.stats with
    | some s => [s.functions, s.globals, s.params, s.locals, s.statements].map toString
    | none => List.replicate 5 "-"
  r.file :: counts ++ [r.status.name]

/-- A summary as a table. -/
def table (rows : List FileReport) : String := Table.render header (rows.map cells)

end FileReport

end Mt22
