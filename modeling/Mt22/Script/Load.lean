import Mt22.Files.Find
import Mt22.Script.Basic

/-!
# Loading scripts

Scripts are loaded from files, either by a path or by a pattern.  A pattern that matches no file
is a fault, and so is a file that cannot be read or a folder that cannot be listed; loading stops
at the first fault, and the scripts loaded before it are known.
-/

namespace Mt22

namespace Script

/-- Why scripts could not be loaded. -/
inductive LoadFault where
  | unreadable (path : String) (cause : FileFault)
  | badPattern (pattern : String) (cause : PatternFault)
  | unlisted (folder : String)
  | noMatch (pattern : String)
deriving DecidableEq

def LoadFault.message : LoadFault → String
  | unreadable path cause => "Missing script at " ++ Text.quoted path ++ ": " ++ cause.message
  | badPattern pattern cause =>
    "Invalid script pattern " ++ Text.quoted pattern ++ ": " ++ cause.message
  | unlisted folder => "Unreadable path " ++ Text.quoted folder
  | noMatch pattern => "No script matches " ++ Text.quoted pattern

def LoadFault.diagnostic (f : LoadFault) : Diagnostic := .missing f.message

/-- The script in a file. -/
def load (fs : FileSystem) (path : String) : Except LoadFault Script :=
  match fs.readText path with
  | .ok content => .ok ⟨pathName path, path, content⟩
  | .error cause => .error (.unreadable path cause)

/-- Scripts loaded up to the first fault. -/
structure Loading where
  scripts : List Script
  fault : Option LoadFault

namespace Loading

/-- One loading, and then another if there was no fault. -/
def andThen (a : Loading) (b : Loading) : Loading :=
  match a.fault with
  | some f => ⟨a.scripts, some f⟩
  | none => ⟨a.scripts ++ b.scripts, b.fault⟩

/-- Nothing but a fault. -/
def failed (f : LoadFault) : Loading := ⟨[], some f⟩

/-- All scripts, if there was no fault. -/
def toExcept (l : Loading) : Except LoadFault (List Script) :=
  match l.fault with
  | some f => .error f
  | none => .ok l.scripts

end Loading

/-- The script in a file that was found. -/
def loadFound (fs : FileSystem) : Except String String → Except LoadFault Script
  | .ok path => load fs path
  | .error folder => .error (.unlisted folder)

/-- The scripts in files that were found, in order. -/
def loadAll (fs : FileSystem) : List (Except String String) → Loading
  | [] => ⟨[], none⟩
  | x :: rest =>
    match loadFound fs x with
    | .error f => .failed f
    | .ok s => (Loading.mk [s] none).andThen (loadAll fs rest)

/-- The scripts in the files that match a pattern, in order, one at least. -/
def discover (fs : FileSystem) (pattern : String) : Loading :=
  match Pattern.parse pattern with
  | .error cause => .failed (.badPattern pattern cause)
  | .ok p =>
    match fs.find p with
    | [] => .failed (.noMatch pattern)
    | found => loadAll fs found

/-- A text that is taken for a pattern rather than for a path. -/
def isPattern (s : String) : Bool := s.toList.any fun c => c = '*' || c = '?' || c = '['

/-- The scripts that the arguments of a command name, in order. -/
def loadArguments (fs : FileSystem) : List String → Loading
  | [] => ⟨[], none⟩
  | a :: rest =>
    (if isPattern a then discover fs a else loadAll fs [.ok a]).andThen (loadArguments fs rest)

end Script

end Mt22
