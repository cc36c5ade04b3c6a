import Mt22.Parsing.Run
import Mt22.Program.OfTree.Decl
import Mt22.Text.Classes

/-!
# Scripts

A script is a source text with a name and a path.  `Script.parse` reads it by the grammar,
`Script.program` makes a program of it; what can go wrong on the way is a `Script.Failure`,
which becomes a diagnostic once the script is known.
-/

namespace Mt22

/-- A source text with its name and the path it was loaded from. -/
structure Script where
  name : String
  path : String
  content : String
deriving DecidableEq

namespace Script

/-- A script that was not loaded from a file. -/
def ofSource (name content : String) : Script := ⟨name, name, content⟩

/-- The characters of a script. -/
def source (s : Script) : List Char := s.content.toList

/-- A script with nothing but blanks. -/
def isEmpty (s : Script) : Bool := Text.allBlank s.source

/-- A position of a script. -/
def locate (s : Script) (p : Text.Position) : Location := .ofPosition s.name p

/-- Where a script starts. -/
def startLocation (s : Script) : Location := s.locate .first

/-- A script's name and path. -/
def describe (s : Script) : String := "Script: " ++ s.name ++ " at " ++ Text.quoted s.path

/-- Why no program could be made of a script. -/
inductive Failure where
  /-- The script is empty. -/
  | empty
  /-- The script cannot be read by the grammar. -/
  | unreadable (attempts : Attempts)
  /-- The grammar left no node. -/
  | noNode
  /-- The tree of the script has a fault. -/
  | faulty (fault : Fault)

/-- Names as they are listed in a message: `A`, `A or B`, `A, B, or C`. -/
def alternatives : List String → String
  | [] => ""
  | [a] => a
  | [a, b] => a ++ " or " ++ b
  | names => ", ".intercalate names.dropLast ++ ", or " ++ names.getLast?.getD ""

/-- What was expected at the furthest place that was reached. -/
def expectation (w : Attempts) : String :=
  if w.expected.isEmpty then "unknown parsing error"
  else "expected " ++ alternatives (w.expected.map Rule.name)

/-- The part of the program that reads scripts. -/
def readerName : String := "mt22.syntax.parse_script"

/-- The diagnostic of a failure. -/
def diagnose (s : Script) : Failure → Diagnostic
  | .empty => .empty readerName s.startLocation
  | .unreadable w =>
    ⟨.error, "Syntax error: " ++ expectation w, readerName,
      s.locate (Text.positionAt s.source w.offset), none⟩
  | .noNode =>
    ⟨.critical, "Parser produced no program node.", readerName, s.startLocation, none⟩
  | .faulty f => f.diagnostic s.name s.source

/-- The nodes that a rule leaves at the start of a script. -/
def parseRule (s : Script) (r : Rule) : Except Failure (List Tree) :=
  match r.read s.source with
  | .ok ts => .ok (Tree.nodes ts)
  | .error w => .error (.unreadable w)

/-- The tree of a script. -/
def parse (s : Script) : Except Failure Tree := do
  if s.isEmpty then throw .empty
  match ← s.parseRule .program with
  | t :: _ => return t
  | [] => throw .noNode

/-- The program of a tree. -/
def lower (t : Tree) : Except Failure Program := (Program.ofTree t).mapError .faulty

/-- The program of a script. -/
def program (s : Script) : Except Failure Program := do lower (← s.parse)

end Script

end Mt22
