import Mt22.Program.Basic

/-!
# What a program holds

Counts of a program, and the targets that it assigns to.
-/

namespace Mt22

/-- How many functions, global variables, parameters, local variables and statements a program
has.  The declaration of a local variable is no statement. -/
structure Stats where
  functions : Nat
  globals : Nat
  params : Nat
  locals : Nat
  statements : Nat
deriving DecidableEq

namespace Stats

/-- The counts of nothing. -/
def zero : Stats := ⟨0, 0, 0, 0, 0⟩

instance : Add Stats where
  add a b := ⟨a.functions + b.functions, a.globals + b.globals, a.params + b.params,
    a.locals + b.locals,
    a.statements + b.statements⟩

/-- One statement. -/
def oneStatement : Stats := { zero with statements := 1 }

/-- One local variable. -/
def oneLocal : Stats := { zero with locals := 1 }

end Stats

namespace Stmt

mutual

/-- The counts of a statement with all that it holds. -/
def stats : Stmt → Stats
  | declare _ => .oneLocal
  | block body => .oneStatement + statsAll body
  | doLoop body _ => .oneStatement + statsAll body
  | ifThen _ body => .oneStatement + body.stats
  | ifElse _ a b => .oneStatement + (a.stats + b.stats)
  | whileLoop _ body => .oneStatement + body.stats
  | forLoop _ _ _ body => .oneStatement + body.stats
  | breakLoop | continueLoop | ret _ | call _ _ | assign _ => .oneStatement

/-- The counts of a list of statements. -/
def statsAll : List Stmt → Stats
  | [] => .zero
  | s :: ss => s.stats + statsAll ss

end

mutual

/-- The targets that a statement assigns to, in the order of the source. -/
def targets : Stmt → List Target
  | assign a => [a.target]
  | block body => targetsAll body
  | doLoop body _ => targetsAll body
  | ifThen _ body => body.targets
  | ifElse _ a b => a.targets ++ b.targets
  | whileLoop _ body => body.targets
  | forLoop init _ _ body => init.target :: body.targets
  | breakLoop | continueLoop | ret _ | call _ _ | declare _ => []

/-- The targets that a list of statements assigns to. -/
def targetsAll : List Stmt → List Target
  | [] => []
  | s :: ss => s.targets ++ targetsAll ss

end

end Stmt

/-- The counts of a declaration. -/
def Decl.stats : Decl → Stats
  | func f => { Stats.zero with functions := 1, params := f.params.length } + Stmt.statsAll f.body
  | var _ => { Stats.zero with globals := 1 }

namespace Program

/-- The counts of a program. -/
def stats (p : Program) : Stats := (p.decls.map Decl.stats).foldr (· + ·) .zero

/-- The targets that the functions of a program assign to, in the order of the source. -/
def targets (p : Program) : List Target :=
  p.decls.flatMap fun
    | .func f => Stmt.targetsAll f.body
    | .var _ => []

end Program

end Mt22
