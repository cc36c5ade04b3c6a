import Mt22.Proofs.Program.Dump
import Mt22.Proofs.Script.Lexical

/-!
# The dump of a script tells its program

The names of a script are words and its floats have no sign, so that its declarations are plain as
soon as its program is `Legible`: no string contains a closing parenthesis, and no function inherits
from one that is called `None`.  Two such scripts with one dump have one program
(`Script.dump_identifies_program`).
-/

namespace Mt22

open Token

namespace Program

/-- No string and no parent of a program could be mistaken for another part of its dump. -/
structure Legible (p : Program) : Prop where
  strings : ∀ x, .str x ∈ p.exprs → ')' ∉ x.toList
  parents : ∀ f, .func f ∈ p.decls → f.parent ≠ some "None"

instance (p : Program) : Decidable p.Legible :=
  decidable_of_iff
    ((∀ e ∈ p.exprs, (match e with | .str x => decide (')' ∉ x.toList) | _ => true) = true) ∧
      ∀ d ∈ p.decls,
        (match d with | .func f => decide (f.parent ≠ some "None") | _ => true) = true) <| by
    constructor
    · rintro ⟨hs, hp⟩
      exact ⟨fun x hx => of_decide_eq_true (hs _ hx), fun f hf => of_decide_eq_true (hp _ hf)⟩
    · rintro ⟨hs, hp⟩
      refine ⟨fun e he => ?_, fun d hd => ?_⟩
      · cases e with
        | str x => exact decide_eq_true (hs x he)
        | _ => rfl
      · cases d with
        | func f => exact decide_eq_true (hp f hd)
        | var v => rfl

end Program

namespace Script

variable {s : Script} {p : Program}

theorem exprs_plain (h : s.program = .ok p) (hp : p.Legible) : ∀ e ∈ p.exprs, e.Plain := by
  intro e he
  have hlex := exprs_lexical h e he
  cases e with
  | str x => exact hp.strings x he
  | id | cell | call | float => exact hlex
  | _ => trivial

theorem decls_plain (h : s.program = .ok p) (hp : p.Legible) : ∀ d ∈ p.decls, d.Plain := by
  obtain ⟨hnames, hparams, hvars⟩ := Program.forall_mem_names (names_isName h)
  have hexprs : ∀ d ∈ p.decls, ∀ e ∈ d.exprs, e.Plain :=
    List.forall_mem_flatMap.mp (exprs_plain h hp)
  intro d hd
  cases d with
  | func f =>
    have hname := hnames (.func f) hd
    have hvars := List.forall_mem_flatMap.mp hvars (.func f) hd
    have hoperands := Stmt.forall_mem_substmtsAll.mpr (Decl.every_of_func (hexprs (.func f) hd))
    refine ⟨?_, List.forall_mem_flatMap.mp hparams (.func f) hd, fun n hn => ⟨?_, ?_⟩, ?_⟩
    · exact hname f.name List.mem_cons_self
    · exact hname n (List.mem_cons_of_mem _ (Option.mem_toList.mpr hn))
    · rintro rfl
      exact hp.parents f hd hn
    · exact Stmt.forall_mem_substmtsAll.mp fun s hs =>
        ⟨hoperands s hs, List.forall_mem_flatMap.mp hvars s hs⟩
  | var v =>
    exact ⟨List.forall_mem_flatMap.mp hvars (.var v) hd v (List.mem_singleton_self v),
      Decl.every_of_var (hexprs (.var v) hd)⟩

/-- **The dump identifies the program** of a script, if that is legible. -/
theorem dump_identifies_program (s t : Script) (p q : Program) (hs : s.program = .ok p)
    (ht : t.program = .ok q) (hp : p.Legible) (hq : q.Legible) (h : p.dump = q.dump) : p = q :=
  Program.eq_of_dump (decls_plain hs hp) (decls_plain ht hq) h

/-- Two scripts with one dump, in which a string looks like the rest of the dump up to the
parenthesis that it lacks. -/
theorem dump_identifies_program_string :
    let s := Script.ofSource "a"
      "f: function void(inherit out x: auto) inherit g \x7bput(\"a, Id(b\");\x7d"
    let t := Script.ofSource "b"
      "f : function void ( inherit out x : auto ) inherit g \x7b put ( ((\"a, Id(b\")) ) ; \x7d"
    let text := "Program([\n\tFuncDecl(f, VoidType, [InheritOutParam(x, AutoType)], g, " ++
      "BlockStmt([CallStmt(put, [StringLit(a, Id(b)])]))\n])"
    ∃ p q, s.program = .ok p ∧ t.program = .ok q ∧ p.Legible ∧ q.Legible ∧ p.dump = text ∧
      q.dump = text ∧ p = q := by
  intro s t text
  have hs : s.program.toOption.map (fun p => (p.dump, decide p.Legible)) = some (text, true) := by
    decide +kernel
  have ht : t.program.toOption.map (fun p => (p.dump, decide p.Legible)) = some (text, true) := by
    decide +kernel
  obtain ⟨p, hp, hshown⟩ := exists_program hs
  obtain ⟨q, hq, hshown'⟩ := exists_program ht
  obtain ⟨hdump, hlegible⟩ := Prod.mk.inj hshown
  obtain ⟨hdump', hlegible'⟩ := Prod.mk.inj hshown'
  have hlegible := of_decide_eq_true hlegible
  have hlegible' := of_decide_eq_true hlegible'
  exact ⟨p, q, hp, hq, hlegible, hlegible', hdump, hdump',
    dump_identifies_program s t p q hp hq hlegible hlegible' (hdump.trans hdump'.symm)⟩

-- a string with a closing parenthesis can pass for two strings, and a parent `None` for no parent
example :
    let dump := fun source => (Script.ofSource "a" source).program.toOption.map Program.dump
    dump "x: auto = \x7b\"a), StringLit(b\"\x7d;" = dump "x: auto = \x7b\"a\", \"b\"\x7d;" ∧
      (dump "x: auto = \x7b\"a\", \"b\"\x7d;").isSome ∧
      dump "f: function void() inherit None \x7b\x7d" = dump "f: function void() \x7b\x7d" ∧
      (dump "f: function void() \x7b\x7d").isSome := by
  decide +kernel

end Script

end Mt22
