import Mt22.Proofs.Program.Dump
import Mt22.Proofs.Script.Lexical

/-!
# The lines of a dump

A dump writes strings as they are, at any depth.  But no string of a script contains a line break,
and neither does a name, a number or anything else that a note is made of (`Note.OneLine`).  So the
line breaks in the dump of a script are those around its declarations (`Script.dump_lines`).
-/

namespace Mt22

open Token Note Number

/-! ### Notes on one line -/

namespace Token

theorem newline_notMem_of_isStringBody {s : List Char} (h : isStringBody s = true) : '\n' ∉ s := by
  obtain ⟨units, rfl, hunits⟩ := isStringBody_iff.mp h
  intro hmem
  obtain ⟨u, hu, hmem⟩ := List.mem_flatten.mp hmem
  rcases hunits u hu with ⟨c, rfl, hc⟩ | ⟨c, rfl, hc⟩
  · rcases List.mem_cons.mp hmem with hbackslash | hmem
    · cases hbackslash
    · rw [← List.mem_singleton.mp hmem] at hc
      cases hc
  · rw [← List.mem_singleton.mp hmem] at hc
    cases hc

end Token

namespace Note

/-- The text of the note has no line break in it. -/
def OneLine (n : Note) : Prop := '\n' ∉ n.write

theorem newline_notMem_intercalate {ns : List Note} :
    '\n' ∉ [',', ' '].intercalate (ns.map write) ↔ ∀ n ∈ ns, n.OneLine := by
  cases ns with
  | nil => simp
  | cons n ns =>
    rw [List.map_cons, Text.intercalate_cons]
    simp [OneLine]

@[simp] theorem oneLine_literal {text : List Char} : (literal text).OneLine ↔ '\n' ∉ text := by
  simp [OneLine]

@[simp] theorem oneLine_list {ns : List Note} : (Note.list ns).OneLine ↔ ∀ n ∈ ns, n.OneLine := by
  rw [← newline_notMem_intercalate]
  simp [OneLine]

@[simp] theorem oneLine_form {kind : String} {ns : List Note} :
    (form kind ns).OneLine ↔ '\n' ∉ kind.toList ∧ ∀ n ∈ ns, n.OneLine := by
  rw [← newline_notMem_intercalate]
  simp [OneLine]

/-- A proper word is plain, and so is on one line. -/
theorem Proper.oneLine_word {text : String} (h : (word text).Proper) : (word text).OneLine := by
  cases h with
  | atom _ hplain => exact fun hmem => Bool.false_ne_true (List.all_eq_true.mp hplain '\n' hmem)

theorem oneLine_of_isName {name : String} (h : isName name.toList = true) : (word name).OneLine :=
  (proper_of_isName h).oneLine_word

end Note

/-! ### Programs -/

theorem Ty.oneLine_note (t : Ty) : t.note.OneLine := by
  cases t with
  | prim p => exact p.proper_dump.oneLine_word
  | auto | void => exact fun hmem => absurd hmem (by decide)
  | array dimensions element =>
    have hdims : ∀ n ∈ dimensions, (word (toString n)).OneLine :=
      fun n _ => (proper_int n).oneLine_word
    simpa [note, element.proper_dump.oneLine_word] using hdims

theorem Expr.oneLine_note {e : Expr} (h : e.Every Lexical) : e.note.OneLine := by
  induction e using Expr.induction with
  | id name => simp [note, oneLine_of_isName (every_id.mp h)]
  | int value =>
    rw [note, oneLine_form, List.forall_mem_singleton]
    exact ⟨by decide, (proper_int value).oneLine_word⟩
  | float value =>
    have hv : value.IsUnsigned := h (.float value) (List.mem_singleton_self _)
    rw [note, oneLine_form, List.forall_mem_singleton]
    exact ⟨by decide, (proper_float hv).oneLine_word⟩
  | str text =>
    exact oneLine_literal.mpr
      (newline_notMem_of_isStringBody (h (.str text) (List.mem_singleton_self _)))
  | bool value => cases value <;> exact fun hmem => absurd hmem (by decide)
  | array elements ih =>
    have hall := fun e he => ih e he ((every_array.mp h).2 e he)
    simpa [note, notes_eq_map] using hall
  | cell name indices ih =>
    obtain ⟨hname, hall⟩ := every_cell.mp h
    have hall := fun e he => ih e he (hall e he)
    simpa [note, notes_eq_map, oneLine_of_isName hname] using hall
  | call name args ih =>
    obtain ⟨hname, hall⟩ := every_call.mp h
    have hall := fun e he => ih e he (hall e he)
    simpa [note, notes_eq_map, oneLine_of_isName hname] using hall
  | binary op left right ihl ihr =>
    obtain ⟨-, hl, hr⟩ := every_binary.mp h
    have hop : (word op.symbol).OneLine := by
      cases op <;> exact fun hmem => absurd hmem (by decide)
    simp [note, hop, ihl hl, ihr hr]
  | unary op operand ih =>
    have hop : (word op.symbol).OneLine := by
      cases op <;> exact fun hmem => absurd hmem (by decide)
    simp [note, hop, ih (every_unary.mp h).2]

theorem Assign.oneLine_note {a : Assign} (ht : a.target.toExpr.Every Expr.Lexical)
    (hv : a.value.Every Expr.Lexical) : a.note.OneLine := by
  simp [note, Expr.oneLine_note ht, Expr.oneLine_note hv]

theorem VarDecl.oneLine_note {v : VarDecl} (hname : isName v.name.toList = true)
    (hinit : ∀ e ∈ v.init, e.Every Expr.Lexical) : v.note.OneLine := by
  have hall := fun e he => Expr.oneLine_note (hinit e he)
  simpa [note, oneLine_of_isName hname, v.ty.oneLine_note] using hall

namespace Stmt

/-- What the leaves of a statement look like. -/
structure Lexical (s : Stmt) : Prop where
  operands : ∀ e ∈ s.operands, e.Every Expr.Lexical
  declared : ∀ v ∈ s.declared, isName v.name.toList = true

theorem oneLine_note {s : Stmt} (h : s.Every Lexical) : s.note.OneLine := by
  induction s using Stmt.induction with
  | block body ih =>
    have hall := fun s hs => ih s hs ((every_block.mp h).2 s hs)
    simpa [note, notes_eq_map] using hall
  | ifThen condition body ih =>
    obtain ⟨hs, hbody⟩ := every_ifThen.mp h
    have hcond := Expr.oneLine_note (hs.operands condition (by simp [operands]))
    simp [note, hcond, ih hbody]
  | ifElse condition a b iha ihb =>
    obtain ⟨hs, ha, hb⟩ := every_ifElse.mp h
    have hcond := Expr.oneLine_note (hs.operands condition (by simp [operands]))
    simp [note, hcond, iha ha, ihb hb]
  | whileLoop condition body ih =>
    obtain ⟨hs, hbody⟩ := every_whileLoop.mp h
    have hcond := Expr.oneLine_note (hs.operands condition (by simp [operands]))
    simp [note, hcond, ih hbody]
  | doLoop body condition ih =>
    obtain ⟨hs, hbody⟩ := every_doLoop.mp h
    have hcond := Expr.oneLine_note (hs.operands condition (by simp [operands]))
    have hall := fun s hs => ih s hs (hbody s hs)
    simpa [note, notes_eq_map, hcond] using hall
  | forLoop init condition update body ih =>
    obtain ⟨hs, hbody⟩ := every_forLoop.mp h
    have hinit := Assign.oneLine_note (hs.operands init.target.toExpr (by simp [operands]))
      (hs.operands init.value (by simp [operands]))
    have hcond := Expr.oneLine_note (hs.operands condition (by simp [operands]))
    have hupdate := Expr.oneLine_note (hs.operands update (by simp [operands]))
    simp [note, hinit, hcond, hupdate, ih hbody]
  | breakLoop | continueLoop => simp [note]
  | ret value =>
    have hall := fun e he => Expr.oneLine_note (((every_of_substmts rfl).mp h).operands e he)
    simpa [note, operands] using hall
  | call name args =>
    obtain ⟨hname, hargs⟩ := Expr.every_call.mp (((every_of_substmts rfl).mp h).operands
      (.call name args) (List.mem_singleton_self _))
    have hall := fun e he => Expr.oneLine_note (hargs e he)
    simpa [note, oneLine_of_isName hname] using hall
  | assign a =>
    have hs := ((every_of_substmts rfl).mp h).operands
    exact Assign.oneLine_note (hs _ (by simp [operands])) (hs _ (by simp [operands]))
  | declare v =>
    have hs := (every_of_substmts rfl).mp h
    exact VarDecl.oneLine_note (hs.declared v (List.mem_singleton_self v))
      fun e he => hs.operands e (Option.mem_toList.mpr he)

end Stmt

theorem Param.oneLine_note {p : Param} (h : isName p.name.toList = true) : p.note.OneLine := by
  have hkind : ∀ inh out, '\n' ∉ (kind inh out).toList := by decide
  simp [note, hkind, oneLine_of_isName h, p.ty.oneLine_note]

namespace Decl

/-- **A declaration is on one line** if its names and the leaves of its expressions have the form
that the grammar gives them. -/
theorem oneLine_note {d : Decl} (hnames : ∀ n ∈ d.names, isName n.toList = true)
    (hparams : ∀ p ∈ d.params, isName p.name.toList = true)
    (hvars : ∀ v ∈ d.vars, isName v.name.toList = true) (hexprs : ∀ e ∈ d.exprs, e.Lexical) :
    d.note.OneLine := by
  cases d with
  | var v => exact VarDecl.oneLine_note (hvars v (List.mem_singleton_self v)) (every_of_var hexprs)
  | func f =>
    have hparent : (word (f.parent.getD "None")).OneLine := by
      cases hp : f.parent with
      | none => exact fun hmem => absurd hmem (by decide)
      | some n =>
        exact oneLine_of_isName (hnames n (List.mem_cons_of_mem _ (Option.mem_toList.mpr hp)))
    have hall := fun p hp => Param.oneLine_note (hparams p hp)
    have hoperands := Stmt.forall_mem_substmtsAll.mpr (every_of_func hexprs)
    have hbody : ∀ s ∈ f.body, s.note.OneLine := fun s hs =>
      Stmt.oneLine_note (Stmt.forall_mem_substmtsAll.mp (fun x hx =>
        ⟨hoperands x hx, List.forall_mem_flatMap.mp hvars x hx⟩) s hs)
    simpa [note, FuncDecl.note, oneLine_of_isName (hnames f.name List.mem_cons_self),
      f.returnType.oneLine_note, hparent] using ⟨hall, hbody⟩

end Decl

/-! ### Lines -/

/-- Separators after all texts but the last are separators between the texts. -/
theorem Text.intercalate_append_singleton (sep last : List Char) (ws : List (List Char)) :
    sep.intercalate (ws ++ [last]) = ws.flatMap (· ++ sep) ++ last := by
  induction ws with
  | nil => simp
  | cons w ws ih =>
    cases ws with
    | nil => simp
    | cons w' ws =>
      rw [List.cons_append, List.cons_append, List.intercalate_cons_cons, ← List.cons_append, ih]
      simp

/-- The dump of a program has a line for each declaration. -/
theorem Program.toList_dump_lines (p : Program) :
    p.dump.toList = ['\n'].intercalate
      (("Program([".toList :: p.decls.map fun d => '\t' :: d.dump.toList) ++ [[']', ')']]) := by
  rw [Text.intercalate_append_singleton, toList_dump]
  simp [List.flatMap_map, Decl.toList_dump]

namespace Script

variable {s : Script} {p : Program}

/-- No declaration of a script is dumped with a line break in it. -/
theorem newline_notMem_dump (h : s.program = .ok p) : ∀ d ∈ p.decls, '\n' ∉ d.dump.toList := by
  obtain ⟨hnames, hparams, hvars⟩ := Program.forall_mem_names (names_isName h)
  intro d hd
  rw [Decl.toList_dump]
  exact Decl.oneLine_note (hnames d hd) (List.forall_mem_flatMap.mp hparams d hd)
    (List.forall_mem_flatMap.mp hvars d hd) (List.forall_mem_flatMap.mp (exprs_lexical h) d hd)

/-- **One declaration on each line.**  The lines of the dump of a script are those of the brackets
around it and one for each declaration, which is the dump of the declaration after a tabulator. -/
theorem dump_lines (s : Script) (p : Program) (h : s.program = .ok p) :
    let lines := (p.dump.toList.splitOn '\n').map String.ofList
    lines = "Program([" :: (p.decls.map fun d => "\t" ++ d.dump) ++ ["])"] ∧
      lines.length = p.decls.length + 2 := by
  intro lines
  have hlines : lines = "Program([" :: (p.decls.map fun d => "\t" ++ d.dump) ++ ["])"] := by
    have hbreaks : ∀ l ∈ ("Program([".toList :: p.decls.map fun d => '\t' :: d.dump.toList) ++
        [[']', ')']], '\n' ∉ l := by
      simp only [List.forall_mem_append, List.forall_mem_cons, List.forall_mem_map]
      refine ⟨⟨by decide, fun d hd => ?_⟩, by decide, List.forall_mem_nil _⟩
      exact List.not_mem_cons_of_ne_of_not_mem (by decide) (newline_notMem_dump h d hd)
    show (p.dump.toList.splitOn '\n').map String.ofList = _
    rw [Program.toList_dump_lines, List.splitOn_intercalate _ hbreaks (by simp)]
    simp
  refine ⟨hlines, ?_⟩
  rw [hlines]
  simp

/-- A group of variables has a line for each of them, and the escape in a string is no line break. -/
theorem dump_lines_group :
    let s := Script.ofSource "a"
      "x, y: auto = \"a\\n)\", \x7b1.5, -2\x7d;\n\nf: function void() \x7b\n\x7d"
    ∃ p, s.program = .ok p ∧ (p.dump.toList.splitOn '\n').map String.ofList =
      ["Program([", "\tVarDecl(x, AutoType, StringLit(a\\n)))",
        "\tVarDecl(y, AutoType, ArrayLit([FloatLit(1.5), UnExpr(-, IntegerLit(2))]))",
        "\tFuncDecl(f, VoidType, [], None, BlockStmt([]))", "])"] := by
  intro s
  have hok : s.program.toOption.map (·.decls.map Decl.dump) =
      some ["VarDecl(x, AutoType, StringLit(a\\n)))",
        "VarDecl(y, AutoType, ArrayLit([FloatLit(1.5), UnExpr(-, IntegerLit(2))]))",
        "FuncDecl(f, VoidType, [], None, BlockStmt([]))"] := by decide +kernel
  obtain ⟨p, hp, hdecls⟩ := exists_program hok
  have hmap : p.decls.map (fun d => "\t" ++ d.dump) = (p.decls.map Decl.dump).map ("\t" ++ ·) := by
    rw [List.map_map]
    rfl
  refine ⟨p, hp, (dump_lines s p hp).1.trans ?_⟩
  rw [hmap, hdecls]
  rfl

end Script

end Mt22
