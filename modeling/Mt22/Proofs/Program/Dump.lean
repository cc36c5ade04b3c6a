import Mt22.Proofs.Number.Layout
import Mt22.Proofs.Program.Note
import Mt22.Proofs.Program.Tokens

/-!
# Programs are recovered from their dumps

A dump has no quotes, so that what it shows is certain only if no name or string in it looks like a
part of the dump itself: names are words, no string contains a closing parenthesis, and no parent is
called as a missing parent is shown.  Such declarations (`Decl.Plain`) have proper notes, which are
those of no other such declaration; hence a dump of such declarations tells the program from all
others of the kind (`Program.eq_of_dump`).
-/

namespace Mt22

open Token Note Number

/-! ### Plain words -/

namespace Note

theorem isPlain_of_isWordChar {c : Char} (h : isWordChar c = true) : isPlain c = true := by
  have hne : ∀ d : Char, isWordChar d = false → c ≠ d := by
    rintro d hd rfl
    rw [hd] at h
    cases h
  simp [isPlain, isInside, hne ',' rfl, hne ')' rfl, hne ']' rfl, hne '\n' rfl, hne '(' rfl,
    hne '[' rfl]

theorem isPlain_of_isNumberChar {c : Char} (h : Decimal.isNumberChar c = true) :
    isPlain c = true := by
  rw [Decimal.isNumberChar, Bool.or_eq_true] at h
  rcases h with h | h
  · exact isPlain_of_isWordChar (isWordChar_of_isDigit h)
  · have hall : ['.', 'e', 'E', '+', '-'].all isPlain = true := rfl
    exact List.all_eq_true.mp hall c (List.contains_iff_mem.mp h)

theorem proper_of_isName {name : String} (h : isName name.toList = true) : (word name).Proper := by
  refine .atom ?_ ?_
  · intro hnil
    rw [hnil] at h
    cases h
  · exact List.all_eq_true.mpr fun c hc =>
      isPlain_of_isWordChar (List.all_eq_true.mp (isName_all h) c hc)

theorem proper_int (v : Int) : (word (toString v)).Proper := by
  refine .atom ?_ (List.all_eq_true.mpr fun c hc => ?_)
  · intro hnil
    have hread := readInteger?_toString v
    rw [hnil] at hread
    cases hread
  · rcases mem_toString_int hc with h | rfl
    · exact isPlain_of_isWordChar (isWordChar_of_isDigit h)
    · rfl

theorem proper_float {v : Binary64} (h : v.IsUnsigned) :
    (word (Expr.dumpLayout.write v)).Proper := by
  cases v with
  | finite _ code =>
    obtain rfl := h
    obtain ⟨q, hq⟩ := Expr.dumpLayout.denotes_write code
    obtain ⟨c, s, hc, -⟩ := hq.head
    refine .atom (by rw [hc]; exact List.cons_ne_nil c s) (List.all_eq_true.mpr fun c hc => ?_)
    exact isPlain_of_isNumberChar (List.all_eq_true.mp hq.all_isNumberChar c hc)
  | infinite _ =>
    obtain rfl := h
    exact .atom (by decide) (by decide)
  | nan => cases h

/-- A node of a plain kind. -/
theorem proper_form {kind : String} {fields : List Note}
    (hkind : kind.toList ≠ [] ∧ kind.toList.all isPlain = true ∧ kind.toList ≠ literalKind)
    (hfields : ∀ n ∈ fields, n.Proper) : (form kind fields).Proper :=
  .node hkind.1 hkind.2.1 hkind.2.2 hfields

theorem proper_list_map {α : Type} {note : α → Note} {as : List α}
    (h : ∀ a ∈ as, (note a).Proper) : (Note.list (as.map note)).Proper :=
  .list (List.forall_mem_map.mpr h)

@[simp] theorem word_inj {a b : String} : word a = word b ↔ a = b := by
  simp [word, String.toList_inj]

@[simp] theorem form_inj {a b : String} {ns ms : List Note} :
    form a ns = form b ms ↔ a = b ∧ ns = ms := by
  simp [form, String.toList_inj]

@[simp] theorem form_ne_word (a b : String) (ns : List Note) : form a ns ≠ word b := nofun

@[simp] theorem word_ne_form (a b : String) (ns : List Note) : word b ≠ form a ns := nofun

@[simp] theorem form_ne_literal (a : String) (ns : List Note) (t : List Char) :
    form a ns ≠ .literal t := nofun

@[simp] theorem literal_ne_form (a : String) (ns : List Note) (t : List Char) :
    .literal t ≠ form a ns := nofun

end Note

/-! ### Types -/

theorem PrimTy.proper_dump (p : PrimTy) : (word p.dump).Proper := by
  cases p <;> exact .atom (by decide) (by decide)

theorem PrimTy.eq_of_dump {p q : PrimTy} (h : p.dump = q.dump) : p = q := by
  cases p <;> cases q <;> first | rfl | exact absurd h (by decide)

namespace Ty

theorem proper_note (t : Ty) : t.note.Proper := by
  cases t with
  | prim p => exact p.proper_dump
  | auto | void => exact .atom (by decide) (by decide)
  | array dimensions element =>
    refine proper_form (by decide) (List.forall_mem_cons.mpr ⟨?_, ?_⟩)
    · exact proper_list_map fun n _ => proper_int n
    · exact List.forall_mem_singleton.mpr element.proper_dump

theorem eq_of_note {a b : Ty} (h : a.note = b.note) : a = b := by
  have hprim : ∀ p : PrimTy, p.dump ≠ "AutoType" ∧ p.dump ≠ "VoidType" := by
    intro p
    cases p <;> decide
  cases a with
  | prim p =>
    cases b with
    | prim q => rw [PrimTy.eq_of_dump (word_inj.mp h)]
    | auto => exact absurd (word_inj.mp h) (hprim p).1
    | void => exact absurd (word_inj.mp h) (hprim p).2
    | array ds q => simp [note] at h
  | auto =>
    cases b with
    | prim q => exact absurd (word_inj.mp h).symm (hprim q).1
    | auto => rfl
    | _ => simp [note] at h
  | void =>
    cases b with
    | prim q => exact absurd (word_inj.mp h).symm (hprim q).2
    | void => rfl
    | _ => simp [note] at h
  | array ds p =>
    cases b with
    | array es q =>
      obtain ⟨hds, hp⟩ : ds.map (fun n : Nat => word (toString n)) =
          es.map (fun n : Nat => word (toString n)) ∧ p.dump = q.dump := by
        simpa [note] using h
      have hnat : ∀ n m : Nat, word (toString n) = word (toString m) → n = m := fun n m hnm =>
        Int.ofNat.inj (toString_int_inj (word_inj.mp hnm))
      rw [PrimTy.eq_of_dump hp, eq_of_map_eq_map (fun n _ m _ => hnat n m) hds]
    | _ => simp [note] at h

end Ty

/-! ### Expressions -/

namespace Expr

/-- The expression shows as one in a dump: its name is a word, its float has no sign, and its string
does not contain a closing parenthesis. -/
def Plain : Expr → Prop
  | id name | cell name _ | call name _ => isName name.toList = true
  | float value => value.IsUnsigned
  | str text => ')' ∉ text.toList
  | int _ | bool _ | array _ | binary .. | unary .. => True

theorem proper_note {e : Expr} (h : e.Every Plain) : e.note.Proper := by
  induction e using Expr.induction with
  | id name =>
    exact proper_form (by decide) (List.forall_mem_singleton.mpr (proper_of_isName (every_id.mp h)))
  | int value =>
    exact proper_form (by decide) (List.forall_mem_singleton.mpr (proper_int value))
  | float value =>
    have hv : value.IsUnsigned := h (.float value) (List.mem_singleton_self _)
    exact proper_form (by decide) (List.forall_mem_singleton.mpr (proper_float hv))
  | str text => exact .literal (h (.str text) (List.mem_singleton_self _))
  | bool value =>
    refine proper_form (by decide) (List.forall_mem_singleton.mpr ?_)
    cases value <;> exact .atom (by decide) (by decide)
  | array elements ih =>
    rw [note, notes_eq_map]
    exact proper_form (by decide) (List.forall_mem_singleton.mpr
      (proper_list_map fun e he => ih e he ((every_array.mp h).2 e he)))
  | cell name indices ih =>
    obtain ⟨hname, hall⟩ := every_cell.mp h
    rw [note, notes_eq_map]
    exact proper_form (by decide) (List.forall_mem_cons.mpr ⟨proper_of_isName hname,
      List.forall_mem_singleton.mpr (proper_list_map fun e he => ih e he (hall e he))⟩)
  | call name args ih =>
    obtain ⟨hname, hall⟩ := every_call.mp h
    rw [note, notes_eq_map]
    exact proper_form (by decide) (List.forall_mem_cons.mpr ⟨proper_of_isName hname,
      List.forall_mem_singleton.mpr (proper_list_map fun e he => ih e he (hall e he))⟩)
  | binary op left right ihl ihr =>
    obtain ⟨-, hl, hr⟩ := every_binary.mp h
    have hop : (word op.symbol).Proper := by cases op <;> exact .atom (by decide) (by decide)
    refine proper_form (by decide) ?_
    simp only [List.forall_mem_cons]
    exact ⟨hop, ihl hl, ihr hr, List.forall_mem_nil _⟩
  | unary op operand ih =>
    have hop : (word op.symbol).Proper := by cases op <;> exact .atom (by decide) (by decide)
    refine proper_form (by decide) ?_
    simp only [List.forall_mem_cons]
    exact ⟨hop, ih (every_unary.mp h).2, List.forall_mem_nil _⟩

/-- No number without a sign is dumped as another one, or as infinity. -/
theorem write_dumpLayout_inj {a b : Binary64} (ha : a.IsUnsigned) (hb : b.IsUnsigned)
    (h : dumpLayout.write a = dumpLayout.write b) : a = b := by
  refine Layout.write_inj_of_isUnsigned (fun c s hc => ?_) ha hb h
  have hhead : c = 'i' := (List.cons.inj (hc : ['i', 'n', 'f'] = c :: s)).1.symm
  rw [hhead]
  rfl

/-- **Expressions with one note are the same.** -/
theorem eq_of_note {e f : Expr} (he : e.Every Plain) (hf : f.Every Plain) (h : e.note = f.note) :
    e = f := by
  induction e using Expr.induction generalizing f with
  | id name =>
    cases f with
    | id name' => simpa [note] using h
    | _ => simp [note] at h
  | int value =>
    cases f with
    | int value' =>
      have hvalue : toString value = toString value' := by simpa [note] using h
      rw [toString_int_inj hvalue]
    | _ => simp [note] at h
  | float value =>
    cases f with
    | float value' =>
      rw [note, note, form_inj, List.cons.injEq, word_inj] at h
      rw [write_dumpLayout_inj (he (.float value) (List.mem_singleton_self _))
        (hf (.float value') (List.mem_singleton_self _)) h.2.1]
    | _ => simp [note] at h
  | str text =>
    cases f with
    | str text' => simpa [note, String.toList_inj] using h
    | _ => simp [note] at h
  | bool value =>
    cases f with
    | bool value' => cases value <;> cases value' <;> simp [note] at h ⊢
    | _ => simp [note] at h
  | array elements ih =>
    cases f with
    | array elements' =>
      have hall : elements.map note = elements'.map note := by simpa [note, notes_eq_map] using h
      rw [eq_of_map_eq_map (fun a ha b hb =>
        ih a ha ((every_array.mp he).2 a ha) ((every_array.mp hf).2 b hb)) hall]
    | _ => simp [note] at h
  | cell name indices ih =>
    cases f with
    | cell name' indices' =>
      obtain ⟨rfl, hall⟩ : name = name' ∧ indices.map note = indices'.map note := by
        simpa [note, notes_eq_map] using h
      rw [eq_of_map_eq_map (fun a ha b hb =>
        ih a ha ((every_cell.mp he).2 a ha) ((every_cell.mp hf).2 b hb)) hall]
    | _ => simp [note] at h
  | call name args ih =>
    cases f with
    | call name' args' =>
      obtain ⟨rfl, hall⟩ : name = name' ∧ args.map note = args'.map note := by
        simpa [note, notes_eq_map] using h
      rw [eq_of_map_eq_map (fun a ha b hb =>
        ih a ha ((every_call.mp he).2 a ha) ((every_call.mp hf).2 b hb)) hall]
    | _ => simp [note] at h
  | binary op left right ihl ihr =>
    cases f with
    | binary op' left' right' =>
      obtain ⟨hop, hl, hr⟩ : op.symbol = op'.symbol ∧ left.note = left'.note ∧
          right.note = right'.note := by simpa [note] using h
      obtain ⟨-, hel, her⟩ := every_binary.mp he
      obtain ⟨-, hfl, hfr⟩ := every_binary.mp hf
      rw [BinaryOp.symbol_inj hop, ihl hel hfl hl, ihr her hfr hr]
    | _ => simp [note] at h
  | unary op operand ih =>
    cases f with
    | unary op' operand' =>
      obtain ⟨hop, hoperand⟩ : op.symbol = op'.symbol ∧ operand.note = operand'.note := by
        simpa [note] using h
      rw [UnaryOp.symbol_inj hop, ih (every_unary.mp he).2 (every_unary.mp hf).2 hoperand]
    | _ => simp [note] at h

end Expr

/-! ### Statements -/

theorem Assign.proper_note {a : Assign} (ht : a.target.toExpr.Every Expr.Plain)
    (hv : a.value.Every Expr.Plain) : a.note.Proper :=
  proper_form (by decide) (List.forall_mem_cons.mpr ⟨Expr.proper_note ht,
    List.forall_mem_singleton.mpr (Expr.proper_note hv)⟩)

theorem Assign.eq_of_note {a b : Assign} (hta : a.target.toExpr.Every Expr.Plain)
    (htb : b.target.toExpr.Every Expr.Plain) (hva : a.value.Every Expr.Plain)
    (hvb : b.value.Every Expr.Plain) (h : a.note = b.note) : a = b := by
  obtain ⟨t, v⟩ := a
  obtain ⟨u, w⟩ := b
  obtain ⟨ht, hv⟩ : t.toExpr.note = u.toExpr.note ∧ v.note = w.note := by simpa [note] using h
  obtain rfl := Target.eq_of_toExpr (Expr.eq_of_note hta htb ht)
  obtain rfl := Expr.eq_of_note hva hvb hv
  rfl

/-- An optional field at the end of a node. -/
theorem Expr.eq_of_notes {a b : Option Expr} (ha : ∀ e ∈ a, e.Every Plain)
    (hb : ∀ e ∈ b, e.Every Plain) (h : a.toList.map note = b.toList.map note) : a = b := by
  have hlist := eq_of_map_eq_map (fun e he f hf =>
    eq_of_note (ha e (Option.mem_toList.mp he)) (hb f (Option.mem_toList.mp hf))) h
  cases a <;> cases b <;> simp_all

/-- The name of the variable is a word, and its first value shows as one. -/
structure VarDecl.Plain (v : VarDecl) : Prop where
  name : isName v.name.toList = true
  init : ∀ e ∈ v.init, e.Every Expr.Plain

theorem VarDecl.proper_note {v : VarDecl} (h : v.Plain) : v.note.Proper := by
  refine proper_form (by decide) ?_
  simp only [List.forall_mem_cons, List.forall_mem_map, Option.mem_toList]
  exact ⟨proper_of_isName h.name, v.ty.proper_note, fun e he => Expr.proper_note (h.init e he)⟩

theorem VarDecl.eq_of_note {v w : VarDecl} (hv : v.Plain) (hw : w.Plain) (h : v.note = w.note) :
    v = w := by
  obtain ⟨n, ty, e⟩ := v
  obtain ⟨m, ty', e'⟩ := w
  obtain ⟨rfl, hty, he⟩ : n = m ∧ ty.note = ty'.note ∧
      e.toList.map Expr.note = e'.toList.map Expr.note := by simpa [note] using h
  obtain rfl := Ty.eq_of_note hty
  obtain rfl := Expr.eq_of_notes hv.init hw.init he
  rfl

namespace Stmt

/-- The expressions of a statement show as such, and the name of its variable is a word. -/
structure Plain (s : Stmt) : Prop where
  operands : ∀ e ∈ s.operands, e.Every Expr.Plain
  declared : ∀ v ∈ s.declared, isName v.name.toList = true

theorem Plain.var {v : VarDecl} (h : (declare v).Plain) : v.Plain where
  name := h.declared v (List.mem_singleton_self v)
  init e he := h.operands e (Option.mem_toList.mpr he)

theorem proper_note {s : Stmt} (h : s.Every Plain) : s.note.Proper := by
  induction s using Stmt.induction with
  | block body ih =>
    rw [note, notes_eq_map]
    exact proper_form (by decide) (List.forall_mem_singleton.mpr
      (proper_list_map fun s hs => ih s hs ((every_block.mp h).2 s hs)))
  | ifThen condition body ih =>
    obtain ⟨hs, hbody⟩ := every_ifThen.mp h
    refine proper_form (by decide) ?_
    simp only [List.forall_mem_cons]
    exact ⟨Expr.proper_note (hs.operands _ (by simp [operands])), ih hbody, List.forall_mem_nil _⟩
  | ifElse condition a b iha ihb =>
    obtain ⟨hs, ha, hb⟩ := every_ifElse.mp h
    refine proper_form (by decide) ?_
    simp only [List.forall_mem_cons]
    exact ⟨Expr.proper_note (hs.operands _ (by simp [operands])), iha ha, ihb hb,
      List.forall_mem_nil _⟩
  | whileLoop condition body ih =>
    obtain ⟨hs, hbody⟩ := every_whileLoop.mp h
    refine proper_form (by decide) ?_
    simp only [List.forall_mem_cons]
    exact ⟨Expr.proper_note (hs.operands _ (by simp [operands])), ih hbody, List.forall_mem_nil _⟩
  | doLoop body condition ih =>
    obtain ⟨hs, hbody⟩ := every_doLoop.mp h
    rw [note, notes_eq_map]
    refine proper_form (by decide) ?_
    simp only [List.forall_mem_cons]
    exact ⟨proper_form (by decide) (List.forall_mem_singleton.mpr
      (proper_list_map fun s hs => ih s hs (hbody s hs))),
      Expr.proper_note (hs.operands _ (by simp [operands])), List.forall_mem_nil _⟩
  | forLoop init condition update body ih =>
    obtain ⟨hs, hbody⟩ := every_forLoop.mp h
    refine proper_form (by decide) ?_
    simp only [List.forall_mem_cons]
    have hinit := Assign.proper_note (hs.operands init.target.toExpr (by simp [operands]))
      (hs.operands init.value (by simp [operands]))
    exact ⟨hinit, Expr.proper_note (hs.operands _ (by simp [operands])),
      Expr.proper_note (hs.operands _ (by simp [operands])), ih hbody, List.forall_mem_nil _⟩
  | breakLoop | continueLoop => exact proper_form (by decide) (List.forall_mem_nil _)
  | ret value =>
    refine proper_form (by decide) (List.forall_mem_map.mpr fun e he => ?_)
    exact Expr.proper_note (((every_of_substmts rfl).mp h).operands e he)
  | call name args =>
    obtain ⟨hname, hargs⟩ := Expr.every_call.mp (((every_of_substmts rfl).mp h).operands
      (.call name args) (List.mem_singleton_self _))
    exact proper_form (by decide) (List.forall_mem_cons.mpr ⟨proper_of_isName hname,
      List.forall_mem_singleton.mpr (proper_list_map fun e he => Expr.proper_note (hargs e he))⟩)
  | assign a =>
    have hs := ((every_of_substmts rfl).mp h).operands
    exact Assign.proper_note (hs _ (by simp [operands])) (hs _ (by simp [operands]))
  | declare v =>
    exact VarDecl.proper_note ((every_of_substmts rfl).mp h).var

/-- **Statements with one note are the same.** -/
theorem eq_of_note {s t : Stmt} (hs : s.Every Plain) (ht : t.Every Plain) (h : s.note = t.note) :
    s = t := by
  induction s using Stmt.induction generalizing t with
  | block body ih =>
    cases t with
    | block body' =>
      have hall : body.map note = body'.map note := by simpa [note, notes_eq_map] using h
      rw [eq_of_map_eq_map (fun a ha b hb =>
        ih a ha ((every_block.mp hs).2 a ha) ((every_block.mp ht).2 b hb)) hall]
    | _ => simp [note, Assign.note, VarDecl.note] at h
  | ifThen condition body ih =>
    cases t with
    | ifThen condition' body' =>
      obtain ⟨hcond, hbody⟩ : condition.note = condition'.note ∧ body.note = body'.note := by
        simpa [note] using h
      obtain ⟨hse, hs⟩ := every_ifThen.mp hs
      obtain ⟨hte, ht⟩ := every_ifThen.mp ht
      rw [Expr.eq_of_note (hse.operands _ (by simp [operands]))
        (hte.operands _ (by simp [operands])) hcond, ih hs ht hbody]
    | _ => simp [note, Assign.note, VarDecl.note] at h
  | ifElse condition a b iha ihb =>
    cases t with
    | ifElse condition' a' b' =>
      obtain ⟨hcond, ha, hb⟩ : condition.note = condition'.note ∧ a.note = a'.note ∧
          b.note = b'.note := by simpa [note] using h
      obtain ⟨hse, hsa, hsb⟩ := every_ifElse.mp hs
      obtain ⟨hte, hta, htb⟩ := every_ifElse.mp ht
      rw [Expr.eq_of_note (hse.operands _ (by simp [operands]))
        (hte.operands _ (by simp [operands])) hcond, iha hsa hta ha, ihb hsb htb hb]
    | _ => simp [note, Assign.note, VarDecl.note] at h
  | whileLoop condition body ih =>
    cases t with
    | whileLoop condition' body' =>
      obtain ⟨hcond, hbody⟩ : condition.note = condition'.note ∧ body.note = body'.note := by
        simpa [note] using h
      obtain ⟨hse, hs⟩ := every_whileLoop.mp hs
      obtain ⟨hte, ht⟩ := every_whileLoop.mp ht
      rw [Expr.eq_of_note (hse.operands _ (by simp [operands]))
        (hte.operands _ (by simp [operands])) hcond, ih hs ht hbody]
    | _ => simp [note, Assign.note, VarDecl.note] at h
  | doLoop body condition ih =>
    cases t with
    | doLoop body' condition' =>
      obtain ⟨hall, hcond⟩ : body.map note = body'.map note ∧ condition.note = condition'.note := by
        simpa [note, notes_eq_map] using h
      obtain ⟨hse, hs⟩ := every_doLoop.mp hs
      obtain ⟨hte, ht⟩ := every_doLoop.mp ht
      rw [Expr.eq_of_note (hse.operands _ (by simp [operands]))
        (hte.operands _ (by simp [operands])) hcond,
        eq_of_map_eq_map (fun a ha b hb => ih a ha (hs a ha) (ht b hb)) hall]
    | _ => simp [note, Assign.note, VarDecl.note] at h
  | forLoop init condition update body ih =>
    cases t with
    | forLoop init' condition' update' body' =>
      obtain ⟨hinit, hcond, hupdate, hbody⟩ : init.note = init'.note ∧
          condition.note = condition'.note ∧ update.note = update'.note ∧
          body.note = body'.note := by
        simpa [note] using h
      obtain ⟨hse, hs⟩ := every_forLoop.mp hs
      obtain ⟨hte, ht⟩ := every_forLoop.mp ht
      rw [Assign.eq_of_note (hse.operands _ (by simp [operands]))
          (hte.operands _ (by simp [operands])) (hse.operands _ (by simp [operands]))
          (hte.operands _ (by simp [operands])) hinit,
        Expr.eq_of_note (hse.operands _ (by simp [operands]))
          (hte.operands _ (by simp [operands])) hcond,
        Expr.eq_of_note (hse.operands _ (by simp [operands]))
          (hte.operands _ (by simp [operands])) hupdate, ih hs ht hbody]
    | _ => simp [note, Assign.note, VarDecl.note] at h
  | breakLoop =>
    cases t with
    | breakLoop => rfl
    | _ => simp [note, Assign.note, VarDecl.note] at h
  | continueLoop =>
    cases t with
    | continueLoop => rfl
    | _ => simp [note, Assign.note, VarDecl.note] at h
  | ret value =>
    cases t with
    | ret value' =>
      have hvalue : value.toList.map Expr.note = value'.toList.map Expr.note := by
        simpa [note] using h
      have hs := ((every_of_substmts rfl).mp hs).operands
      have ht := ((every_of_substmts rfl).mp ht).operands
      rw [Expr.eq_of_notes (fun e he => hs e (Option.mem_toList.mpr he))
        (fun e he => ht e (Option.mem_toList.mpr he)) hvalue]
    | _ => simp [note, Assign.note, VarDecl.note] at h
  | call name args =>
    cases t with
    | call name' args' =>
      obtain ⟨rfl, hall⟩ : name = name' ∧ args.map Expr.note = args'.map Expr.note := by
        simpa [note] using h
      have hs := ((every_of_substmts rfl).mp hs).operands (.call name args)
        (List.mem_singleton_self _)
      have ht := ((every_of_substmts rfl).mp ht).operands (.call name args')
        (List.mem_singleton_self _)
      rw [eq_of_map_eq_map (fun a ha b hb => Expr.eq_of_note
        ((Expr.every_call.mp hs).2 a ha) ((Expr.every_call.mp ht).2 b hb)) hall]
    | _ => simp [note, Assign.note, VarDecl.note] at h
  | assign a =>
    cases t with
    | assign a' =>
      have hs := ((every_of_substmts rfl).mp hs).operands
      have ht := ((every_of_substmts rfl).mp ht).operands
      rw [Assign.eq_of_note (hs _ (by simp [operands])) (ht _ (by simp [operands]))
        (hs _ (by simp [operands])) (ht _ (by simp [operands])) h]
    | _ => simp [note, Assign.note, VarDecl.note] at h
  | declare v =>
    cases t with
    | declare v' =>
      rw [VarDecl.eq_of_note ((every_of_substmts rfl).mp hs).var
        ((every_of_substmts rfl).mp ht).var h]
    | _ => simp [note, Assign.note, VarDecl.note] at h

end Stmt

/-! ### Declarations -/

theorem Param.proper_note {p : Param} (h : isName p.name.toList = true) : p.note.Proper := by
  have hkind : ∀ inh out, (kind inh out).toList ≠ [] ∧ (kind inh out).toList.all isPlain = true ∧
      (kind inh out).toList ≠ literalKind := by decide
  exact proper_form (hkind _ _) (List.forall_mem_cons.mpr
    ⟨proper_of_isName h, List.forall_mem_singleton.mpr p.ty.proper_note⟩)

theorem Param.eq_of_note {p q : Param} (h : p.note = q.note) : p = q := by
  obtain ⟨n, ty, out, inh⟩ := p
  obtain ⟨m, ty', out', inh'⟩ := q
  obtain ⟨hkind, rfl, hty⟩ : kind inh out = kind inh' out' ∧ n = m ∧ ty.note = ty'.note := by
    simpa [note] using h
  obtain rfl := Ty.eq_of_note hty
  have hmarks : ∀ a b c d, kind a b = kind c d → a = c ∧ b = d := by decide
  obtain ⟨rfl, rfl⟩ := hmarks _ _ _ _ hkind
  rfl

namespace FuncDecl

/-- All names in the function are words, its parent is not called as a missing one is shown, and its
statements show as such. -/
structure Plain (f : FuncDecl) : Prop where
  name : isName f.name.toList = true
  params : ∀ p ∈ f.params, isName p.name.toList = true
  parent : ∀ n ∈ f.parent, isName n.toList = true ∧ n ≠ "None"
  body : ∀ s ∈ f.body, s.Every Stmt.Plain

theorem proper_note {f : FuncDecl} (h : f.Plain) : f.note.Proper := by
  have hparent : (word (f.parent.getD "None")).Proper := by
    cases hp : f.parent with
    | none => exact .atom (by decide) (by decide)
    | some n => exact proper_of_isName (h.parent n hp).1
  have hbody : (form "BlockStmt" [.list (f.body.map Stmt.note)]).Proper :=
    proper_form (by decide) (List.forall_mem_singleton.mpr
      (proper_list_map fun s hs => Stmt.proper_note (h.body s hs)))
  refine proper_form (by decide) ?_
  simp only [List.forall_mem_cons]
  exact ⟨proper_of_isName h.name, f.returnType.proper_note,
    proper_list_map fun p hp => Param.proper_note (h.params p hp), hparent, hbody,
    List.forall_mem_nil _⟩

theorem eq_of_note {f g : FuncDecl} (hf : f.Plain) (hg : g.Plain) (h : f.note = g.note) :
    f = g := by
  obtain ⟨n, ty, ps, parent, body⟩ := f
  obtain ⟨m, ty', ps', parent', body'⟩ := g
  obtain ⟨rfl, hty, hps, hparent, hbody⟩ : n = m ∧ ty.note = ty'.note ∧
      ps.map Param.note = ps'.map Param.note ∧ parent.getD "None" = parent'.getD "None" ∧
      body.map Stmt.note = body'.map Stmt.note := by simpa [note] using h
  obtain rfl := Ty.eq_of_note hty
  obtain rfl := eq_of_map_eq_map (fun a _ b _ => Param.eq_of_note) hps
  obtain rfl := eq_of_map_eq_map
    (fun a ha b hb => Stmt.eq_of_note (hf.body a ha) (hg.body b hb)) hbody
  have hparent : parent = parent' := by
    cases parent with
    | none =>
      cases parent' with
      | none => rfl
      | some n => exact absurd hparent.symm (hg.parent n rfl).2
    | some n =>
      cases parent' with
      | none => exact absurd hparent (hf.parent n rfl).2
      | some m => exact congrArg some hparent
  rw [hparent]

end FuncDecl

namespace Decl

/-- The function or variable shows as one. -/
def Plain : Decl → Prop
  | func f => f.Plain
  | var v => v.Plain

theorem proper_note {d : Decl} (h : d.Plain) : d.note.Proper := by
  cases d with
  | func f => exact FuncDecl.proper_note h
  | var v => exact VarDecl.proper_note h

theorem eq_of_note {d d' : Decl} (hd : d.Plain) (hd' : d'.Plain) (h : d.note = d'.note) :
    d = d' := by
  cases d with
  | func f =>
    cases d' with
    | func g => rw [FuncDecl.eq_of_note hd hd' h]
    | var w => simp [note, FuncDecl.note, VarDecl.note] at h
  | var v =>
    cases d' with
    | func g => simp [note, FuncDecl.note, VarDecl.note] at h
    | var w => rw [VarDecl.eq_of_note hd hd' h]

end Decl

/-- **The dump of a plain program tells it from all others.** -/
theorem Program.eq_of_dump {p q : Program} (hp : ∀ d ∈ p.decls, d.Plain)
    (hq : ∀ d ∈ q.decls, d.Plain) (h : p.dump = q.dump) : p = q := by
  have hlines := congrArg String.toList h
  rw [toList_dump, toList_dump, List.append_cancel_left_eq] at hlines
  have hnotes := lines_inj (List.forall_mem_map.mpr fun d hd => Decl.proper_note (hp d hd))
    (List.forall_mem_map.mpr fun d hd => Decl.proper_note (hq d hd)) hlines
  obtain ⟨ds⟩ := p
  obtain ⟨ds'⟩ := q
  obtain rfl := eq_of_map_eq_map (fun d hd d' hd' => Decl.eq_of_note (hp d hd) (hq d' hd')) hnotes
  rfl

end Mt22
