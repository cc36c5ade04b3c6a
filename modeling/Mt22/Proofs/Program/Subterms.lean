import Mathlib.Data.List.Basic
import Mt22.Program.Basic

/-!
# The expressions and statements of a program

All expressions, statements, variables, parameters and types of a program, at any depth, as lists;
and the properties `Expr.Every P` and `Stmt.Every P`, that `P` holds of an expression or statement
with all that it holds, one equation for each form.

The target of an assignment and a call that is a statement count as the expressions that they would
be at another place.
-/

namespace Mt22

theorem eq_of_map_eq_map {α β : Type} {f : α → β} {as bs : List α}
    (hf : ∀ a ∈ as, ∀ b ∈ bs, f a = f b → a = b) (h : as.map f = bs.map f) : as = bs := by
  induction as generalizing bs with
  | nil =>
    cases bs with
    | nil => rfl
    | cons b bs => cases h
  | cons a as ih =>
    cases bs with
    | nil => cases h
    | cons b bs =>
      obtain ⟨hhead, htail⟩ := List.cons.inj h
      rw [hf a (by simp) b (by simp) hhead,
        ih (fun a ha b hb => hf a (by simp [ha]) b (by simp [hb])) htail]

namespace Expr

mutual

/-- An expression with all expressions in it. -/
def subexprs : Expr → List Expr
  | id name => [id name]
  | int value => [int value]
  | float value => [float value]
  | str text => [str text]
  | bool value => [bool value]
  | array elements => array elements :: subexprsAll elements
  | cell name indices => cell name indices :: subexprsAll indices
  | call name args => call name args :: subexprsAll args
  | binary op left right => binary op left right :: (left.subexprs ++ right.subexprs)
  | unary op operand => unary op operand :: operand.subexprs

/-- The expressions of a list with all expressions in them. -/
def subexprsAll : List Expr → List Expr
  | [] => []
  | e :: es => e.subexprs ++ subexprsAll es

end

/-- A property of an expression and of all expressions in it. -/
def Every (P : Expr → Prop) (e : Expr) : Prop := ∀ x ∈ e.subexprs, P x

variable {P : Expr → Prop}

theorem subexprsAll_eq (es : List Expr) : subexprsAll es = es.flatMap subexprs := by
  induction es with
  | nil => rfl
  | cons e es ih =>
    show e.subexprs ++ subexprsAll es = _
    rw [ih, List.flatMap_cons]

theorem forall_mem_subexprsAll {es : List Expr} :
    (∀ x ∈ subexprsAll es, P x) ↔ ∀ e ∈ es, e.Every P := by
  simp only [subexprsAll_eq, List.forall_mem_flatMap, Every]

@[simp] theorem every_id {name : String} : (id name).Every P ↔ P (.id name) :=
  List.forall_mem_singleton

@[simp] theorem every_array {es : List Expr} :
    (array es).Every P ↔ P (.array es) ∧ ∀ e ∈ es, e.Every P := by
  show (∀ x ∈ array es :: subexprsAll es, P x) ↔ _
  rw [List.forall_mem_cons, forall_mem_subexprsAll]

@[simp] theorem every_cell {name : String} {es : List Expr} :
    (cell name es).Every P ↔ P (.cell name es) ∧ ∀ e ∈ es, e.Every P := by
  show (∀ x ∈ cell name es :: subexprsAll es, P x) ↔ _
  rw [List.forall_mem_cons, forall_mem_subexprsAll]

@[simp] theorem every_call {name : String} {es : List Expr} :
    (call name es).Every P ↔ P (.call name es) ∧ ∀ e ∈ es, e.Every P := by
  show (∀ x ∈ call name es :: subexprsAll es, P x) ↔ _
  rw [List.forall_mem_cons, forall_mem_subexprsAll]

@[simp] theorem every_binary {op : BinaryOp} {l r : Expr} :
    (binary op l r).Every P ↔ P (.binary op l r) ∧ l.Every P ∧ r.Every P := by
  show (∀ x ∈ binary op l r :: (l.subexprs ++ r.subexprs), P x) ↔ _
  rw [List.forall_mem_cons, List.forall_mem_append, Every, Every]

@[simp] theorem every_unary {op : UnaryOp} {e : Expr} :
    (unary op e).Every P ↔ P (.unary op e) ∧ e.Every P :=
  List.forall_mem_cons

/-- Induction on expressions, with what is known of the expressions in a list. -/
@[elab_as_elim] theorem induction {motive : Expr → Prop} (id : ∀ name, motive (id name))
    (int : ∀ value, motive (int value)) (float : ∀ value, motive (float value))
    (str : ∀ text, motive (str text)) (bool : ∀ value, motive (bool value))
    (array : ∀ elements, (∀ e ∈ elements, motive e) → motive (array elements))
    (cell : ∀ name indices, (∀ e ∈ indices, motive e) → motive (cell name indices))
    (call : ∀ name args, (∀ e ∈ args, motive e) → motive (call name args))
    (binary : ∀ op left right, motive left → motive right → motive (binary op left right))
    (unary : ∀ op operand, motive operand → motive (unary op operand)) : ∀ e, motive e
  | .id name => id name
  | .int value => int value
  | .float value => float value
  | .str text => str text
  | .bool value => bool value
  | .array elements => array elements fun e _ =>
    induction id int float str bool array cell call binary unary e
  | .cell name indices => cell name indices fun e _ =>
    induction id int float str bool array cell call binary unary e
  | .call name args => call name args fun e _ =>
    induction id int float str bool array cell call binary unary e
  | .binary op left right => binary op left right
    (induction id int float str bool array cell call binary unary left)
    (induction id int float str bool array cell call binary unary right)
  | .unary op operand => unary op operand
    (induction id int float str bool array cell call binary unary operand)
termination_by e => sizeOf e

/-- Operators that are applied to the left keep what holds of their operands. -/
theorem every_foldl (hP : ∀ op l r, P (.binary op l r)) {x : Expr}
    {ps : List (BinaryOp × Expr)} (hx : x.Every P) (hps : ∀ p ∈ ps, p.2.Every P) :
    (ps.foldl (fun e p => .binary p.1 e p.2) x).Every P := by
  induction ps generalizing x with
  | nil => exact hx
  | cons p ps ih =>
    obtain ⟨hp, hps⟩ := List.forall_mem_cons.mp hps
    exact ih (every_binary.mpr ⟨hP _ _ _, hx, hp⟩) hps

end Expr

/-- A target is known by the expression that reads it. -/
theorem Target.eq_of_toExpr {t u : Target} (h : t.toExpr = u.toExpr) : t = u := by
  cases t <;> cases u <;> simp_all [toExpr]

namespace Stmt

mutual

/-- A statement with all statements in it. -/
def substmts : Stmt → List Stmt
  | block body => block body :: substmtsAll body
  | ifThen condition body => ifThen condition body :: body.substmts
  | ifElse condition a b => ifElse condition a b :: (a.substmts ++ b.substmts)
  | whileLoop condition body => whileLoop condition body :: body.substmts
  | doLoop body condition => doLoop body condition :: substmtsAll body
  | forLoop init condition update body => forLoop init condition update body :: body.substmts
  | breakLoop => [breakLoop]
  | continueLoop => [continueLoop]
  | ret value => [ret value]
  | call name args => [call name args]
  | assign a => [assign a]
  | declare v => [declare v]

/-- The statements of a list with all statements in them. -/
def substmtsAll : List Stmt → List Stmt
  | [] => []
  | s :: ss => s.substmts ++ substmtsAll ss

end

/-- The statements that stand in a statement without a block around them. -/
def branches : Stmt → List Stmt
  | ifThen _ body | whileLoop _ body | forLoop _ _ _ body => [body]
  | ifElse _ a b => [a, b]
  | _ => []

/-- The expressions that stand in a statement, and in no statement in it. -/
def operands : Stmt → List Expr
  | ifThen condition _ | ifElse condition _ _ | whileLoop condition _ | doLoop _ condition =>
    [condition]
  | forLoop init condition update _ => [init.target.toExpr, init.value, condition, update]
  | ret value => value.toList
  | call name args => [.call name args]
  | assign a => [a.target.toExpr, a.value]
  | declare v => v.init.toList
  | block _ | breakLoop | continueLoop => []

/-- The variable that a statement declares. -/
def declared : Stmt → List VarDecl
  | declare v => [v]
  | _ => []

/-- A property of a statement and of all statements in it. -/
def Every (P : Stmt → Prop) (s : Stmt) : Prop := ∀ x ∈ s.substmts, P x

variable {P : Stmt → Prop}

theorem substmtsAll_eq (ss : List Stmt) : substmtsAll ss = ss.flatMap substmts := by
  induction ss with
  | nil => rfl
  | cons s ss ih =>
    show s.substmts ++ substmtsAll ss = _
    rw [ih, List.flatMap_cons]

theorem forall_mem_substmtsAll {ss : List Stmt} :
    (∀ x ∈ substmtsAll ss, P x) ↔ ∀ s ∈ ss, s.Every P := by
  simp only [substmtsAll_eq, List.forall_mem_flatMap, Every]

/-- A statement that holds no other. -/
theorem every_of_substmts {s : Stmt} (h : s.substmts = [s]) : s.Every P ↔ P s := by
  rw [Every, h, List.forall_mem_singleton]

@[simp] theorem every_block {ss : List Stmt} :
    (block ss).Every P ↔ P (.block ss) ∧ ∀ s ∈ ss, s.Every P := by
  show (∀ x ∈ block ss :: substmtsAll ss, P x) ↔ _
  rw [List.forall_mem_cons, forall_mem_substmtsAll]

@[simp] theorem every_doLoop {ss : List Stmt} {e : Expr} :
    (doLoop ss e).Every P ↔ P (.doLoop ss e) ∧ ∀ s ∈ ss, s.Every P := by
  show (∀ x ∈ doLoop ss e :: substmtsAll ss, P x) ↔ _
  rw [List.forall_mem_cons, forall_mem_substmtsAll]

@[simp] theorem every_ifThen {e : Expr} {s : Stmt} :
    (ifThen e s).Every P ↔ P (.ifThen e s) ∧ s.Every P :=
  List.forall_mem_cons

@[simp] theorem every_ifElse {e : Expr} {a b : Stmt} :
    (ifElse e a b).Every P ↔ P (.ifElse e a b) ∧ a.Every P ∧ b.Every P := by
  show (∀ x ∈ ifElse e a b :: (a.substmts ++ b.substmts), P x) ↔ _
  rw [List.forall_mem_cons, List.forall_mem_append, Every, Every]

@[simp] theorem every_whileLoop {e : Expr} {s : Stmt} :
    (whileLoop e s).Every P ↔ P (.whileLoop e s) ∧ s.Every P :=
  List.forall_mem_cons

@[simp] theorem every_forLoop {i : Assign} {e u : Expr} {s : Stmt} :
    (forLoop i e u s).Every P ↔ P (.forLoop i e u s) ∧ s.Every P :=
  List.forall_mem_cons

/-- Induction on statements, with what is known of the statements in a block. -/
@[elab_as_elim] theorem induction {motive : Stmt → Prop}
    (block : ∀ body, (∀ s ∈ body, motive s) → motive (block body))
    (ifThen : ∀ condition body, motive body → motive (ifThen condition body))
    (ifElse : ∀ condition a b, motive a → motive b → motive (ifElse condition a b))
    (whileLoop : ∀ condition body, motive body → motive (whileLoop condition body))
    (doLoop : ∀ body condition, (∀ s ∈ body, motive s) → motive (doLoop body condition))
    (forLoop : ∀ init condition update body, motive body →
      motive (forLoop init condition update body))
    (breakLoop : motive breakLoop) (continueLoop : motive continueLoop)
    (ret : ∀ value, motive (ret value)) (call : ∀ name args, motive (call name args))
    (assign : ∀ a, motive (assign a)) (declare : ∀ v, motive (declare v)) : ∀ s, motive s
  | .block body => block body fun s _ =>
    induction block ifThen ifElse whileLoop doLoop forLoop breakLoop continueLoop ret call
      assign declare s
  | .ifThen condition body => ifThen condition body
    (induction block ifThen ifElse whileLoop doLoop forLoop breakLoop continueLoop ret call
      assign declare body)
  | .ifElse condition a b => ifElse condition a b
    (induction block ifThen ifElse whileLoop doLoop forLoop breakLoop continueLoop ret call
      assign declare a)
    (induction block ifThen ifElse whileLoop doLoop forLoop breakLoop continueLoop ret call
      assign declare b)
  | .whileLoop condition body => whileLoop condition body
    (induction block ifThen ifElse whileLoop doLoop forLoop breakLoop continueLoop ret call
      assign declare body)
  | .doLoop body condition => doLoop body condition fun s _ =>
    induction block ifThen ifElse whileLoop doLoop forLoop breakLoop continueLoop ret call
      assign declare s
  | .forLoop init condition update body => forLoop init condition update body
    (induction block ifThen ifElse whileLoop doLoop forLoop breakLoop continueLoop ret call
      assign declare body)
  | .breakLoop => breakLoop
  | .continueLoop => continueLoop
  | .ret value => ret value
  | .call name args => call name args
  | .assign a => assign a
  | .declare v => declare v
termination_by s => sizeOf s

end Stmt

namespace Decl

/-- The statements of a declaration, at any depth. -/
def stmts : Decl → List Stmt
  | func f => Stmt.substmtsAll f.body
  | var _ => []

/-- The variables of a declaration, at any depth. -/
def vars : Decl → List VarDecl
  | func f => (Stmt.substmtsAll f.body).flatMap Stmt.declared
  | var v => [v]

/-- The parameters of a declaration. -/
def params : Decl → List Param
  | func f => f.params
  | var _ => []

/-- The expressions of a declaration, at any depth. -/
def exprs : Decl → List Expr
  | func f => ((Stmt.substmtsAll f.body).flatMap Stmt.operands).flatMap Expr.subexprs
  | var v => v.init.toList.flatMap Expr.subexprs

variable {P : Expr → Prop}

/-- What holds of the expressions of a function holds in its statements. -/
theorem every_of_func {f : FuncDecl} (h : ∀ e ∈ (func f).exprs, P e) :
    ∀ s ∈ f.body, s.Every fun s => ∀ e ∈ s.operands, e.Every P := by
  refine Stmt.forall_mem_substmtsAll.mp fun s hs e he x hx => h x ?_
  exact List.mem_flatMap.mpr ⟨e, List.mem_flatMap.mpr ⟨s, hs, he⟩, hx⟩

/-- What holds of the expressions of a variable holds of its first value. -/
theorem every_of_var {v : VarDecl} (h : ∀ e ∈ (var v).exprs, P e) : ∀ e ∈ v.init, e.Every P :=
  fun e he x hx => h x (List.mem_flatMap.mpr ⟨e, Option.mem_toList.mpr he, hx⟩)

/-- The type that a function returns. -/
def returnType : Decl → List Ty
  | func f => [f.returnType]
  | var _ => []

end Decl

namespace Program

variable (p : Program)

/-- The statements of a program, at any depth. -/
def stmts : List Stmt := p.decls.flatMap Decl.stmts

/-- The variables of a program, global and local. -/
def vars : List VarDecl := p.decls.flatMap Decl.vars

/-- The parameters of the functions of a program. -/
def params : List Param := p.decls.flatMap Decl.params

/-- The expressions of a program, at any depth. -/
def exprs : List Expr := p.decls.flatMap Decl.exprs

/-- The types of the functions, parameters and variables of a program. -/
def types : List Ty :=
  p.decls.flatMap Decl.returnType ++ p.params.map Param.ty ++ p.vars.map VarDecl.ty

end Program

end Mt22
