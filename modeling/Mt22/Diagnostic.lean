import Mt22.Text.Position

/-!
# Diagnostics

A diagnostic is what a user is shown when something fails: how bad it is, a message, the part of
the program that raised it, and where in which script the trouble lies, if that is known.

* `Diagnostic.summary`: the message, with its location.
* `Diagnostic.report`: the line that the command line prints.
* `Diagnostic.detail`: everything.
-/

namespace Mt22

/-- How bad a diagnostic is. -/
inductive Level where
  | info | warning | error | critical
deriving DecidableEq

namespace Level

/-- All levels, the mildest first. -/
def all : List Level := [info, warning, error, critical]

/-- The place of a level in the order, the mildest first. -/
def rank : Level → Nat
  | info => 0
  | warning => 1
  | error => 2
  | critical => 3

def name : Level → String
  | info => "INFO"
  | warning => "WARNING"
  | error => "ERROR"
  | critical => "CRITICAL"

/-- The level with a name. -/
def ofName? (s : String) : Option Level := all.find? fun l => l.name = s

/-- Levels are compared by how bad they are. -/
instance : Ord Level := ⟨fun a b => compare a.rank b.rank⟩

end Level

/-- A position in a named script. -/
structure Location where
  file : String
  line : Nat
  column : Nat
deriving DecidableEq

/-- A stretch of a script. -/
structure Span where
  start : Location
  stop : Location
deriving DecidableEq

/-- A position of a text as a location in a script. -/
def Location.ofPosition (file : String) (p : Text.Position) : Location :=
  ⟨file, p.line, p.column⟩

def Location.text (l : Location) : String :=
  l.file ++ ":" ++ toString l.line ++ ":" ++ toString l.column

def Span.text (s : Span) : String := s.start.text ++ " - " ++ s.stop.text

/-- What is shown of a failure. -/
structure Diagnostic where
  level : Level
  message : String
  issuer : String
  location : Option Location
  span : Option Span
deriving DecidableEq

namespace Diagnostic

/-- The message, with its location in parentheses. -/
def summary (d : Diagnostic) : String :=
  match d.location with
  | some l => d.message ++ " (at " ++ l.text ++ ")"
  | none => d.message

/-- The line that is printed: level, location and message. -/
def report (d : Diagnostic) : String :=
  " | ".intercalate ["MT22", d.level.name,
    (d.location.map Location.text).getD "unknown location", d.message]

/-- All parts of a diagnostic in one line. -/
def detail (d : Diagnostic) : String :=
  " | ".intercalate ["MT22", d.level.name, (d.location.map Location.text).getD "unknown", d.issuer,
    (d.span.map Span.text).getD "span:none", d.message]

/-! ## Kinds of diagnostics -/

/-- A syntax tree is not shaped as the grammar promises.  This is never the fault of a program's
author. -/
def contract (message issuer : String) (location : Option Location) (span : Option Span) :
    Diagnostic :=
  ⟨.critical, message, issuer, location, span⟩

/-- A literal that is well formed has a value that cannot be represented. -/
def literal (message : String) (location : Option Location) (span : Option Span) : Diagnostic :=
  ⟨.error, message, "mt22.lower.literal", location, span⟩

/-- A script could not be loaded. -/
def missing (message : String) : Diagnostic := ⟨.error, message, "mt22.script", none, none⟩

/-- A script holds nothing. -/
def empty (issuer : String) (location : Option Location) : Diagnostic :=
  ⟨.error, "The provided script is empty.", issuer, location, none⟩

end Diagnostic

end Mt22
