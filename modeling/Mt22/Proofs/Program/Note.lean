import Mt22.Program.Dump
import Mt22.Proofs.Program.Subterms
import Mt22.Proofs.Text.Note

/-!
# Dumps are notes

The dump of a program shows a tree: each expression, statement, type and declaration has a `note`,
and its dump is the text of that note (`Expr.toList_dump` and the like).  A field that may be
missing is missing in the list of fields, and the marks of a parameter belong to the kind of its
node.
-/

namespace Mt22

namespace Note

/-- A word as a note. -/
def word (text : String) : Note := .atom text.toList

/-- A node with the name of its kind. -/
def form (kind : String) (fields : List Note) : Note := .node kind.toList fields

@[simp] theorem write_word (text : String) : (word text).write = text.toList := rfl

@[simp] theorem write_literal (text : List Char) :
    (literal text).write = "StringLit".toList ++ '(' :: (text ++ [')']) := rfl

@[simp] theorem write_list (items : List Note) :
    (list items).write = '[' :: ([',', ' '].intercalate (items.map write) ++ [']']) := by
  rw [write, writeAll_eq_map]

@[simp] theorem write_form (kind : String) (fields : List Note) : (form kind fields).write =
    kind.toList ++ '(' :: ([',', ' '].intercalate (fields.map write) ++ [')']) := by
  rw [form, write, writeAll_eq_map]

end Note

open Note

/-- Items with commas between them, if the dump of each is the text of its note. -/
theorem toList_commas {α : Type} {dump : α → String} {note : α → Note} {as : List α}
    (h : ∀ a ∈ as, (dump a).toList = (note a).write) :
    (commas (as.map dump)).toList = [',', ' '].intercalate ((as.map note).map write) := by
  rw [commas, String.toList_intercalate, List.map_map, List.map_map]
  exact congrArg _ (List.map_congr_left h)

/-! ### Types and expressions -/

/-- The note of a type. -/
def Ty.note : Ty → Note
  | .prim p => .word p.dump
  | .auto => .word "AutoType"
  | .void => .word "VoidType"
  | .array dimensions element =>
    .form "ArrayType" [.list (dimensions.map fun n => .word (toString n)), .word element.dump]

theorem Ty.toList_dump (t : Ty) : t.dump.toList = t.note.write := by
  cases t with
  | prim | auto | void => rfl
  | array dimensions element =>
    have hall : (commas (dimensions.map toString)).toList =
        [',', ' '].intercalate ((dimensions.map fun n => word (toString n)).map write) :=
      toList_commas fun _ _ => rfl
    change ("ArrayType([" ++ commas (dimensions.map toString) ++ "], " ++ element.dump ++
      ")").toList = _
    simp [note, hall]

namespace Expr

mutual

/-- The note of an expression. -/
def note : Expr → Note
  | id name => .form "Id" [.word name]
  | int value => .form "IntegerLit" [.word (toString value)]
  | float value => .form "FloatLit" [.word (dumpLayout.write value)]
  | str text => .literal text.toList
  | bool value => .form "BooleanLit" [.word (if value then "true" else "false")]
  | array elements => .form "ArrayLit" [.list (notes elements)]
  | cell name indices => .form "ArrayCell" [.word name, .list (notes indices)]
  | call name args => .form "FuncCall" [.word name, .list (notes args)]
  | binary op left right => .form "BinExpr" [.word op.symbol, left.note, right.note]
  | unary op operand => .form "UnExpr" [.word op.symbol, operand.note]

def notes : List Expr → List Note
  | [] => []
  | e :: es => e.note :: notes es

end

theorem notes_eq_map (es : List Expr) : notes es = es.map note := by
  induction es with
  | nil => rfl
  | cons e es ih => rw [notes, ih, List.map_cons]

/-- **The dump of an expression is the text of its note.** -/
theorem toList_dump (e : Expr) : e.dump.toList = e.note.write := by
  -- the texts are stated, since equations with long strings in them are slow to make
  induction e using Expr.induction with
  | id name =>
    change ("Id(" ++ name ++ ")").toList = _
    simp [note]
  | int value =>
    change ("IntegerLit(" ++ toString value ++ ")").toList = _
    simp [note]
  | float value =>
    change ("FloatLit(" ++ dumpLayout.write value ++ ")").toList = _
    rw [note]
    generalize dumpLayout.write value = text
    simp
  | str text =>
    change ("StringLit(" ++ text ++ ")").toList = _
    simp [note]
  | bool value =>
    change ("BooleanLit(" ++ (if value then "true" else "false") ++ ")").toList = _
    simp [note]
  | array elements ih =>
    change ("ArrayLit([" ++ commas (dumpAll elements) ++ "])").toList = _
    simp [note, notes_eq_map, dumpAll_eq_map, toList_commas ih]
  | cell name indices ih =>
    change ("ArrayCell(" ++ name ++ ", [" ++ commas (dumpAll indices) ++ "])").toList = _
    simp [note, notes_eq_map, dumpAll_eq_map, toList_commas ih]
  | call name args ih =>
    change ("FuncCall(" ++ name ++ ", [" ++ commas (dumpAll args) ++ "])").toList = _
    simp [note, notes_eq_map, dumpAll_eq_map, toList_commas ih]
  | binary op left right ihl ihr =>
    change ("BinExpr(" ++ op.symbol ++ ", " ++ left.dump ++ ", " ++ right.dump ++ ")").toList = _
    simp [note, ihl, ihr]
  | unary op operand ih =>
    change ("UnExpr(" ++ op.symbol ++ ", " ++ operand.dump ++ ")").toList = _
    simp [note, ih]

end Expr

/-! ### Statements -/

/-- The note of an assignment. -/
def Assign.note (a : Assign) : Note := .form "AssignStmt" [a.target.toExpr.note, a.value.note]

theorem Assign.toList_dump (a : Assign) : a.dump.toList = a.note.write := by
  change ("AssignStmt(" ++ a.target.toExpr.dump ++ ", " ++ a.value.dump ++ ")").toList = _
  simp [note, Expr.toList_dump]

/-- The note of a variable, with or without a first value. -/
def VarDecl.note (v : VarDecl) : Note :=
  .form "VarDecl" (.word v.name :: v.ty.note :: v.init.toList.map Expr.note)

theorem VarDecl.toList_dump (v : VarDecl) : v.dump.toList = v.note.write := by
  obtain ⟨name, ty, init⟩ := v
  cases init with
  | none =>
    change ("VarDecl(" ++ name ++ ", " ++ ty.dump ++ ")").toList = _
    simp [note, Ty.toList_dump]
  | some e =>
    change ("VarDecl(" ++ name ++ ", " ++ ty.dump ++ ", " ++ e.dump ++ ")").toList = _
    simp [note, Ty.toList_dump, Expr.toList_dump]

namespace Stmt

mutual

/-- The note of a statement. -/
def note : Stmt → Note
  | block body => .form "BlockStmt" [.list (notes body)]
  | ifThen condition body => .form "IfStmt" [condition.note, body.note]
  | ifElse condition a b => .form "IfStmt" [condition.note, a.note, b.note]
  | whileLoop condition body => .form "WhileStmt" [condition.note, body.note]
  | doLoop body condition =>
    .form "DoWhileStmt" [.form "BlockStmt" [.list (notes body)], condition.note]
  | forLoop init condition update body =>
    .form "ForStmt" [init.note, condition.note, update.note, body.note]
  | breakLoop => .form "BreakStmt" []
  | continueLoop => .form "ContinueStmt" []
  | ret value => .form "ReturnStmt" (value.toList.map Expr.note)
  | call name args => .form "CallStmt" [.word name, .list (args.map Expr.note)]
  | assign assignment => assignment.note
  | declare var => var.note

def notes : List Stmt → List Note
  | [] => []
  | s :: ss => s.note :: notes ss

end

theorem notes_eq_map (ss : List Stmt) : notes ss = ss.map note := by
  induction ss with
  | nil => rfl
  | cons s ss ih => rw [notes, ih, List.map_cons]

/-- **The dump of a statement is the text of its note.** -/
theorem toList_dump (s : Stmt) : s.dump.toList = s.note.write := by
  induction s using Stmt.induction with
  | block body ih =>
    change ("BlockStmt([" ++ commas (dumpAll body) ++ "])").toList = _
    simp [note, notes_eq_map, dumpAll_eq_map, toList_commas ih]
  | ifThen condition body ih =>
    change ("IfStmt(" ++ condition.dump ++ ", " ++ body.dump ++ ")").toList = _
    simp [note, Expr.toList_dump, ih]
  | ifElse condition a b iha ihb =>
    change ("IfStmt(" ++ condition.dump ++ ", " ++ a.dump ++ ", " ++ b.dump ++ ")").toList = _
    simp [note, Expr.toList_dump, iha, ihb]
  | whileLoop condition body ih =>
    change ("WhileStmt(" ++ condition.dump ++ ", " ++ body.dump ++ ")").toList = _
    simp [note, Expr.toList_dump, ih]
  | doLoop body condition ih =>
    change ("DoWhileStmt(BlockStmt([" ++ commas (dumpAll body) ++ "]), " ++ condition.dump ++
      ")").toList = _
    simp [note, notes_eq_map, dumpAll_eq_map, Expr.toList_dump, toList_commas ih]
  | forLoop init condition update body ih =>
    change ("ForStmt(" ++ init.dump ++ ", " ++ condition.dump ++ ", " ++ update.dump ++ ", " ++
      body.dump ++ ")").toList = _
    simp [note, Assign.toList_dump, Expr.toList_dump, ih]
  | breakLoop =>
    change "BreakStmt()".toList = _
    simp [note]
  | continueLoop =>
    change "ContinueStmt()".toList = _
    simp [note]
  | ret value =>
    cases value with
    | none =>
      change "ReturnStmt()".toList = _
      simp [note]
    | some e =>
      change ("ReturnStmt(" ++ e.dump ++ ")").toList = _
      simp [note, Expr.toList_dump]
  | call name args =>
    change ("CallStmt(" ++ name ++ ", [" ++ commas (args.map Expr.dump) ++ "])").toList = _
    simp [note, toList_commas fun e (_ : e ∈ args) => Expr.toList_dump e]
  | assign a => exact a.toList_dump
  | declare v => exact v.toList_dump

end Stmt

/-! ### Declarations -/

/-- The kind of a parameter, with its marks. -/
def Param.kind (inh out : Bool) : String :=
  (if inh then "Inherit" else "") ++ (if out then "Out" else "") ++ "Param"

/-- The note of a parameter. -/
def Param.note (p : Param) : Note := .form (kind p.inherit p.out) [.word p.name, p.ty.note]

theorem Param.toList_dump (p : Param) : p.dump.toList = p.note.write := by
  change ((if p.inherit then "Inherit" else "") ++ (if p.out then "Out" else "") ++ "Param(" ++
    p.name ++ ", " ++ p.ty.dump ++ ")").toList = _
  simp [note, kind, Ty.toList_dump]

/-- The note of a function. -/
def FuncDecl.note (f : FuncDecl) : Note :=
  .form "FuncDecl" [.word f.name, f.returnType.note, .list (f.params.map Param.note),
    .word (f.parent.getD "None"), .form "BlockStmt" [.list (f.body.map Stmt.note)]]

theorem FuncDecl.toList_dump (f : FuncDecl) : f.dump.toList = f.note.write := by
  have hparams := toList_commas fun p (_ : p ∈ f.params) => Param.toList_dump p
  have hbody := toList_commas fun s (_ : s ∈ f.body) => Stmt.toList_dump s
  change ("FuncDecl(" ++ f.name ++ ", " ++ f.returnType.dump ++ ", [" ++
    commas (f.params.map Param.dump) ++ "], " ++ f.parent.getD "None" ++ ", BlockStmt([" ++
    commas (f.body.map Stmt.dump) ++ "]))").toList = _
  simp [note, Ty.toList_dump, hparams, hbody]

/-- The note of a declaration. -/
def Decl.note : Decl → Note
  | .func f => f.note
  | .var v => v.note

theorem Decl.toList_dump (d : Decl) : d.dump.toList = d.note.write := by
  cases d with
  | func f => exact f.toList_dump
  | var v => exact v.toList_dump

/-- **The dump of a program is the text of its notes, each on a line of its own.** -/
theorem Program.toList_dump (p : Program) : p.dump.toList = "Program([\n".toList ++
    (((p.decls.map Decl.note).flatMap fun n => '\t' :: (n.write ++ ['\n'])) ++ [']', ')']) := by
  have hlines : ∀ d : Decl, ("\t" ++ d.dump ++ "\n").toList = '\t' :: (d.note.write ++ ['\n']) := by
    intro d
    simp [Decl.toList_dump]
  change ("Program([\n" ++ String.join (p.decls.map fun d => "\t" ++ d.dump ++ "\n") ++
    "])").toList = _
  simp [String.toList_join, List.flatMap_map, hlines]

end Mt22
