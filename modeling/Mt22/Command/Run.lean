import Mt22.Command.Invocation
import Mt22.Command.Report
import Mt22.Script.Load

/-!
# Running a command

`Command.run` runs a command line on a file system: what it prints, the code it ends with and
the files it leaves.  All scripts are loaded before the first is read, and all are read before
anything about them is printed.
-/

namespace Mt22.Command

/-- How much a user must ask for to see a line of the log. -/
inductive LogLevel where
  | info | debug | trace
deriving DecidableEq

namespace LogLevel

/-- The verbosity from which a level is shown. -/
def threshold : LogLevel → Nat
  | info => 1
  | debug => 2
  | trace => 3

/-- The tag in front of a line. -/
def tag : LogLevel → String
  | info => "[INFO ] "
  | debug => "[DEBUG] "
  | trace => "[TRACE] "

end LogLevel

/-- A line for the user: always shown, or part of the log. -/
inductive Notice where
  | always (line : String)
  | log (level : LogLevel) (line : String)
deriving DecidableEq

/-- The line as it is shown at a verbosity. -/
def Notice.shown? (verbosity : Nat) : Notice → Option String
  | always line => some line
  | log level line => if level.threshold ≤ verbosity then some (level.tag ++ line) else none

/-- Lines, each with its end. -/
def unlines (lines : List String) : String := String.join (lines.map (· ++ "\n"))

/-- The lines that are shown at a verbosity. -/
def showNotices (verbosity : Nat) (ns : List Notice) : String :=
  unlines (ns.filterMap (Notice.shown? verbosity))

/-- How a command ended: its code, what it printed, the file that it wrote with its text, and
all files after it. -/
structure Ending where
  code : Nat
  stdout : String
  stderr : String
  written : Option (String × String)
  files : FileSystem

/-- The log of a script that was loaded. -/
def loadedNotice (s : Script) : Notice :=
  .log .debug ("loaded script " ++ s.path ++ " (" ++ toString s.content.utf8ByteSize ++ " bytes)")

/-- The log of loading. -/
def loadNotices (l : Script.Loading) : List Notice :=
  l.scripts.map loadedNotice ++
    match l.fault with
    | some _ => []
    | none => [.log .debug ("loaded " ++ toString l.scripts.length ++ " script(s)")]

/-- The log of a function that was made of a tree. -/
def functionNotice (f : FuncDecl) : Notice :=
  .log .trace ("lowered function " ++ f.name ++ " (" ++ toString f.params.length ++ " params)")

/-- The log of making a program of a script. -/
def readNotices (s : Script) : List Notice :=
  match s.parse with
  | .error _ => []
  | .ok t =>
    .log .debug ("parsed " ++ s.name) :: (Program.functionsBeforeFault t).map functionNotice ++
      match Program.ofTree t with
      | .ok p =>
        [.log .debug
          ("lowered " ++ s.name ++ " into " ++ toString p.decls.length ++ " declarations")]
      | .error _ => []

/-- The line of a diagnostic. -/
def failureNotice (d : Diagnostic) : Notice := .always d.report

/-- What is made of each script, or why nothing is. -/
def lowerAll (scripts : List Script) : List (Except Diagnostic Program) :=
  scripts.map fun s => s.program.mapError s.diagnose

/-- The ending of a command whose scripts were not loaded. -/
def Ending.ofLoadFault (verbosity : Nat) (l : Script.Loading) (f : Script.LoadFault)
    (fs : FileSystem) : Ending :=
  ⟨1, "", showNotices verbosity (loadNotices l ++ [failureNotice f.diagnostic]), none, fs⟩

/-! ## Building -/

/-- How far `build` is: whether a script has failed, the programs that were made, and the lines of
the diagnostics. -/
structure Building where
  failed : Bool
  built : List BuiltFile
  printed : List Notice

namespace Building

def start : Building := ⟨false, [], []⟩

/-- Takes a script with what was made of it. -/
def step (b : Building) : Script × Except Diagnostic Program → Building
  | (s, .ok p) => { b with built := b.built ++ [⟨s.name, p⟩] }
  | (_, .error d) => { b with failed := true, printed := b.printed ++ [failureNotice d] }

/-- All scripts, in order. -/
def ofScripts (scripts : List Script) : Building :=
  (scripts.zip (lowerAll scripts)).foldl step start

def code (b : Building) : Nat := if b.failed then 1 else 0

/-- What is written of the programs. -/
def output (b : Building) : BuildFormat → String
  | .text => BuiltFile.text b.built
  | .json => (Json.arr (b.built.map BuiltFile.toJson)).pretty

end Building

/-- Builds scripts that were loaded, after some notices. -/
def buildScripts (fs : FileSystem) (verbosity : Nat) (before : List Notice) (format : BuildFormat)
    (output : Option String) (scripts : List Script) : Ending :=
  let building := Building.ofScripts scripts
  let notices := before ++ scripts.flatMap readNotices ++ building.printed
  let text := building.output format
  match output with
  | none => ⟨building.code, unlines [text], showNotices verbosity notices, none, fs⟩
  | some path =>
    match fs.write path text.toUTF8 with
    | .ok written =>
      let notices := notices ++ [.log .info ("wrote " ++ path)]
      ⟨building.code, "", showNotices verbosity notices, some (path, text), written⟩
    | .error cause =>
      let notices := notices ++ [.always ("Failed to write " ++ path ++ ": " ++ cause.message)]
      ⟨1, "", showNotices verbosity notices, none, fs⟩

/-- Runs `build`. -/
def runBuild (fs : FileSystem) (verbosity : Nat) (format : BuildFormat) (output : Option String)
    (files : List String) : Ending :=
  let loading := Script.loadArguments fs files
  match loading.toExcept with
  | .error f => .ofLoadFault verbosity loading f fs
  | .ok scripts => buildScripts fs verbosity (loadNotices loading) format output scripts

/-! ## Checking -/

/-- The row of a script with what was made of it, and the lines that are printed on the way. -/
def checkScript : Script × Except Diagnostic Program → FileReport × List Notice
  | (s, .ok p) => (.lowered s.name p, [])
  | (s, .error d) => (.failed s.name d, [failureNotice d])

/-- The rows of scripts with what is printed for each, in order. -/
def checkAll (scripts : List Script) : List (FileReport × List Notice) :=
  (scripts.zip (lowerAll scripts)).map checkScript

/-- The rows of a summary. -/
def checkRows (scripts : List Script) : List FileReport := (checkAll scripts).map (·.1)

/-- The lines of the diagnostics. -/
def checkNotices (scripts : List Script) : List Notice := (checkAll scripts).flatMap (·.2)

/-- The code that goes with the rows of a summary. -/
def checkCode (rows : List FileReport) : Nat := if rows.any (·.status = .failed) then 1 else 0

/-- A summary as it is printed. -/
def summary (rows : List FileReport) : CheckFormat → String
  | .table => FileReport.table rows
  | .json => (Json.arr (rows.map FileReport.toJson)).pretty

/-- Checks scripts that were loaded, after some notices. -/
def checkScripts (fs : FileSystem) (verbosity : Nat) (before : List Notice) (format : CheckFormat)
    (scripts : List Script) : Ending :=
  let rows := checkRows scripts
  let notices := before ++ scripts.flatMap readNotices ++ checkNotices scripts
  ⟨checkCode rows, unlines [summary rows format], showNotices verbosity notices, none, fs⟩

/-- Runs `check`. -/
def runCheck (fs : FileSystem) (verbosity : Nat) (format : CheckFormat) (files : List String) :
    Ending :=
  let loading := Script.loadArguments fs files
  match loading.toExcept with
  | .error f => .ofLoadFault verbosity loading f fs
  | .ok scripts => checkScripts fs verbosity (loadNotices loading) format scripts

/-! ## Command lines -/

/-- The version of the program. -/
def versionLine : String := "mt22 0.1.0"

/-- How the program is used. -/
def helpLines : List String := [
  "Lowers MT22 programs into their abstract syntax tree",
  "",
  "Usage: mt22 [-v] build [-f text|json] [-o FILE] FILES...",
  "       mt22 [-v] check [-f table|json] FILES...",
  "       mt22 --version"]

/-- A command that only prints. -/
def Ending.ofPrint (code : Nat) (stdout stderr : List String) (fs : FileSystem) : Ending :=
  ⟨code, unlines stdout, unlines stderr, none, fs⟩

/-- Runs a command line. -/
def run (args : List String) (fs : FileSystem) : Ending :=
  match Invocation.parse args with
  | .version => .ofPrint 0 [versionLine] [] fs
  | .help => .ofPrint 0 helpLines [] fs
  | .misuse => .ofPrint 2 [] ["error: wrong usage", "", "For more information, try '--help'."] fs
  | .nothing =>
    .ofPrint 1 [] ["No valid subcommand was used. Use --help for more information."] fs
  | .run verbosity (.build format output) files => runBuild fs verbosity format output files
  | .run verbosity (.check format) files => runCheck fs verbosity format files

end Mt22.Command
