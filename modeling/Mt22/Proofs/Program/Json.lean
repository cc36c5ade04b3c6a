import Mt22.Program.Json
import Mt22.Proofs.Json.Compact
import Mt22.Proofs.Program.Subterms

/-!
# Programs are recovered from their JSON

No two forms of an expression, statement, type or declaration share a name, an operator is known by
its symbol, and `null` stands for a missing value only where no form could stand.  So two programs
whose JSON shows the same are the same (`Program.eq_of_shown_toJson`), if no float of theirs has a
sign: then the only float that is shown as `null` is infinity.
-/

namespace Mt22

open Json

namespace Json

@[simp] theorem shown_null : null.shown = null := rfl

@[simp] theorem shown_bool (b : Bool) : (bool b).shown = bool b := rfl

@[simp] theorem shown_int (n : Int) : (int n).shown = int n := rfl

@[simp] theorem shown_str (s : String) : (str s).shown = str s := rfl

@[simp] theorem shown_arr (items : List Json) : (arr items).shown = arr (items.map shown) := by
  rw [shown, shownItems_eq_map]

@[simp] theorem shown_obj (members : List (String × Json)) :
    (obj members).shown = obj (members.map fun m => (m.1, m.2.shown)) := by
  rw [shown, shownMembers_eq_map]

@[simp] theorem shown_form (name : String) (contents : Json) :
    (form name contents).shown = form name contents.shown := by
  simp [form]

@[simp] theorem form_inj {n m : String} {v w : Json} : form n v = form m w ↔ n = m ∧ v = w := by
  simp [form]

@[simp] theorem form_ne_null (n : String) (v : Json) : form n v ≠ null := nofun

@[simp] theorem form_ne_str (n s : String) (v : Json) : form n v ≠ str s := nofun

@[simp] theorem str_ne_form (n s : String) (v : Json) : str s ≠ form n v := nofun

end Json

/-- A float of which `null` leaves no doubt. -/
theorem Number.Binary64.IsUnsigned.eq_of_shown {a b : Binary64} (ha : a.IsUnsigned)
    (hb : b.IsUnsigned) (h : (float a).shown = (float b).shown) : a = b := by
  cases a <;> cases b <;> simp_all [shown, IsUnsigned]

namespace Expr

/-- A float has no sign. -/
def Unsigned : Expr → Prop
  | float value => value.IsUnsigned
  | _ => True

theorem toJsonAll_eq_map (es : List Expr) : toJsonAll es = es.map toJson := by
  induction es with
  | nil => rfl
  | cons e es ih => rw [toJsonAll, ih, List.map_cons]

/-- **Expressions whose JSON shows the same are the same.** -/
theorem eq_of_shown_toJson {e f : Expr} (he : e.Every Unsigned) (hf : f.Every Unsigned)
    (h : e.toJson.shown = f.toJson.shown) : e = f := by
  induction e using Expr.induction generalizing f with
  | id name =>
    cases f with
    | id name' => simpa [toJson] using h
    | _ => simp [toJson] at h
  | int value =>
    cases f with
    | int value' => simpa [toJson] using h
    | _ => simp [toJson] at h
  | float value =>
    cases f with
    | float value' =>
      have hshown : (Json.float value).shown = (Json.float value').shown := by
        simpa [toJson] using h
      have hv : value.IsUnsigned := he (.float value) (List.mem_singleton_self _)
      have hv' : value'.IsUnsigned := hf (.float value') (List.mem_singleton_self _)
      rw [hv.eq_of_shown hv' hshown]
    | _ => simp [toJson] at h
  | str text =>
    cases f with
    | str text' => simpa [toJson] using h
    | _ => simp [toJson] at h
  | bool value =>
    cases f with
    | bool value' => simpa [toJson] using h
    | _ => simp [toJson] at h
  | array elements ih =>
    cases f with
    | array elements' =>
      have hall : elements.map (shown ∘ toJson) = elements'.map (shown ∘ toJson) := by
        simpa [toJson, toJsonAll_eq_map] using h
      rw [eq_of_map_eq_map (fun a ha b hb =>
        ih a ha ((every_array.mp he).2 a ha) ((every_array.mp hf).2 b hb)) hall]
    | _ => simp [toJson] at h
  | cell name indices ih =>
    cases f with
    | cell name' indices' =>
      obtain ⟨rfl, hall⟩ : name = name' ∧
          indices.map (shown ∘ toJson) = indices'.map (shown ∘ toJson) := by
        simpa [toJson, toJsonAll_eq_map] using h
      rw [eq_of_map_eq_map (fun a ha b hb =>
        ih a ha ((every_cell.mp he).2 a ha) ((every_cell.mp hf).2 b hb)) hall]
    | _ => simp [toJson] at h
  | call name args ih =>
    cases f with
    | call name' args' =>
      obtain ⟨rfl, hall⟩ : name = name' ∧
          args.map (shown ∘ toJson) = args'.map (shown ∘ toJson) := by
        simpa [toJson, toJsonAll_eq_map] using h
      rw [eq_of_map_eq_map (fun a ha b hb =>
        ih a ha ((every_call.mp he).2 a ha) ((every_call.mp hf).2 b hb)) hall]
    | _ => simp [toJson] at h
  | binary op left right ihl ihr =>
    cases f with
    | binary op' left' right' =>
      obtain ⟨hop, hl, hr⟩ : op.symbol = op'.symbol ∧ left.toJson.shown = left'.toJson.shown ∧
          right.toJson.shown = right'.toJson.shown := by simpa [toJson] using h
      obtain ⟨-, hel, her⟩ := every_binary.mp he
      obtain ⟨-, hfl, hfr⟩ := every_binary.mp hf
      rw [BinaryOp.symbol_inj hop, ihl hel hfl hl, ihr her hfr hr]
    | _ => simp [toJson] at h
  | unary op operand ih =>
    cases f with
    | unary op' operand' =>
      obtain ⟨hop, hoperand⟩ : op.symbol = op'.symbol ∧
          operand.toJson.shown = operand'.toJson.shown := by simpa [toJson] using h
      rw [UnaryOp.symbol_inj hop, ih (every_unary.mp he).2 (every_unary.mp hf).2 hoperand]
    | _ => simp [toJson] at h

theorem shown_toJson_ne_null (e : Expr) : e.toJson.shown ≠ .null := by
  cases e <;> simp [toJson]

end Expr

/-! ### Types, targets and variables -/

theorem Json.eq_of_shown_ofOption {α : Type} {f : α → Json} {a b : Option α}
    (hnull : ∀ x, (f x).shown ≠ null) (hf : ∀ x ∈ a, ∀ y ∈ b, (f x).shown = (f y).shown → x = y)
    (h : (ofOption f a).shown = (ofOption f b).shown) : a = b := by
  cases a <;> cases b
  · rfl
  · exact absurd h.symm (hnull _)
  · exact absurd h (hnull _)
  · exact congrArg some (hf _ rfl _ rfl h)

theorem PrimTy.eq_of_shown_toJson {p q : PrimTy} (h : p.toJson.shown = q.toJson.shown) : p = q := by
  cases p <;> cases q <;> simp [toJson] at h ⊢

theorem Ty.eq_of_shown_toJson {a b : Ty} (h : a.toJson.shown = b.toJson.shown) : a = b := by
  have hprim : ∀ p : PrimTy, p.toJson.shown ≠ .str "Auto" ∧ p.toJson.shown ≠ .str "Void" ∧
      ∀ v, p.toJson.shown ≠ .form "Array" v := by
    intro p
    cases p <;> simp [PrimTy.toJson]
  cases a with
  | prim p =>
    cases b with
    | prim q => rw [PrimTy.eq_of_shown_toJson h]
    | auto => exact absurd h (hprim p).1
    | void => exact absurd h (hprim p).2.1
    | array ds q => exact absurd h ((hprim p).2.2 _)
  | auto =>
    cases b with
    | prim q => exact absurd h.symm (hprim q).1
    | auto => rfl
    | _ => simp [toJson] at h
  | void =>
    cases b with
    | prim q => exact absurd h.symm (hprim q).2.1
    | void => rfl
    | _ => simp [toJson] at h
  | array ds p =>
    cases b with
    | prim q => exact absurd h.symm ((hprim q).2.2 _)
    | array es q =>
      obtain ⟨hds, hp⟩ : ds.map (fun n : Nat => Json.int n) = es.map (fun n : Nat => Json.int n) ∧
          p.toJson.shown = q.toJson.shown := by
        simpa [toJson, Function.comp_def] using h
      rw [PrimTy.eq_of_shown_toJson hp,
        eq_of_map_eq_map (fun n _ m _ hnm => Int.ofNat.inj (Json.int.inj hnm)) hds]
    | _ => simp [toJson] at h

theorem Assign.eq_of_shown_toJson {a b : Assign} (hta : a.target.toExpr.Every Expr.Unsigned)
    (htb : b.target.toExpr.Every Expr.Unsigned) (hva : a.value.Every Expr.Unsigned)
    (hvb : b.value.Every Expr.Unsigned) (h : a.toJson.shown = b.toJson.shown) : a = b := by
  obtain ⟨t, v⟩ := a
  obtain ⟨u, w⟩ := b
  obtain ⟨ht, hv⟩ : t.toExpr.toJson.shown = u.toExpr.toJson.shown ∧
      v.toJson.shown = w.toJson.shown := by simpa [toJson, Target.toJson] using h
  obtain rfl := Target.eq_of_toExpr (Expr.eq_of_shown_toJson hta htb ht)
  obtain rfl := Expr.eq_of_shown_toJson hva hvb hv
  rfl

theorem VarDecl.eq_of_shown_toJson {v w : VarDecl} (hv : ∀ e ∈ v.init, e.Every Expr.Unsigned)
    (hw : ∀ e ∈ w.init, e.Every Expr.Unsigned) (h : v.toJson.shown = w.toJson.shown) : v = w := by
  obtain ⟨n, ty, e⟩ := v
  obtain ⟨m, ty', e'⟩ := w
  obtain ⟨rfl, hty, he⟩ : n = m ∧ ty.toJson.shown = ty'.toJson.shown ∧
      (ofOption Expr.toJson e).shown = (ofOption Expr.toJson e').shown := by
    simpa [toJson] using h
  obtain rfl := Ty.eq_of_shown_toJson hty
  obtain rfl := eq_of_shown_ofOption Expr.shown_toJson_ne_null
    (fun x hx y hy => Expr.eq_of_shown_toJson (hv x hx) (hw y hy)) he
  rfl

/-! ### Statements -/

namespace Stmt

/-- No float in the expressions of a statement has a sign. -/
def Unsigned (s : Stmt) : Prop := ∀ e ∈ s.operands, e.Every Expr.Unsigned

theorem toJsonAll_eq_map (ss : List Stmt) : toJsonAll ss = ss.map toJson := by
  induction ss with
  | nil => rfl
  | cons s ss ih => rw [toJsonAll, ih, List.map_cons]

theorem shown_toJson_ne_null (s : Stmt) : s.toJson.shown ≠ .null := by
  cases s <;> simp [toJson]

/-- **Statements whose JSON shows the same are the same.** -/
theorem eq_of_shown_toJson {s t : Stmt} (hs : s.Every Unsigned) (ht : t.Every Unsigned)
    (h : s.toJson.shown = t.toJson.shown) : s = t := by
  induction s using Stmt.induction generalizing t with
  | block body ih =>
    cases t with
    | block body' =>
      have hall : body.map (shown ∘ toJson) = body'.map (shown ∘ toJson) := by
        simpa [toJson, toJsonAll_eq_map] using h
      rw [eq_of_map_eq_map (fun a ha b hb =>
        ih a ha ((every_block.mp hs).2 a ha) ((every_block.mp ht).2 b hb)) hall]
    | _ => simp [toJson] at h
  | ifThen condition body ih =>
    cases t with
    | ifThen condition' body' =>
      obtain ⟨hcond, hbody⟩ : condition.toJson.shown = condition'.toJson.shown ∧
          body.toJson.shown = body'.toJson.shown := by simpa [toJson] using h
      obtain ⟨hse, hs⟩ := every_ifThen.mp hs
      obtain ⟨hte, ht⟩ := every_ifThen.mp ht
      rw [Expr.eq_of_shown_toJson (hse _ (by simp [operands])) (hte _ (by simp [operands])) hcond,
        ih hs ht hbody]
    | ifElse condition' a b =>
      have hnull : Json.null = b.toJson.shown := (by simpa [toJson] using h : _ ∧ _ ∧ _).2.2
      exact absurd hnull.symm (shown_toJson_ne_null b)
    | _ => simp [toJson] at h
  | ifElse condition a b iha ihb =>
    cases t with
    | ifElse condition' a' b' =>
      obtain ⟨hcond, ha, hb⟩ : condition.toJson.shown = condition'.toJson.shown ∧
          a.toJson.shown = a'.toJson.shown ∧ b.toJson.shown = b'.toJson.shown := by
        simpa [toJson] using h
      obtain ⟨hse, hsa, hsb⟩ := every_ifElse.mp hs
      obtain ⟨hte, hta, htb⟩ := every_ifElse.mp ht
      rw [Expr.eq_of_shown_toJson (hse _ (by simp [operands])) (hte _ (by simp [operands])) hcond,
        iha hsa hta ha, ihb hsb htb hb]
    | ifThen condition' body =>
      have hnull : b.toJson.shown = Json.null := (by simpa [toJson] using h : _ ∧ _ ∧ _).2.2
      exact absurd hnull (shown_toJson_ne_null b)
    | _ => simp [toJson] at h
  | whileLoop condition body ih =>
    cases t with
    | whileLoop condition' body' =>
      obtain ⟨hcond, hbody⟩ : condition.toJson.shown = condition'.toJson.shown ∧
          body.toJson.shown = body'.toJson.shown := by simpa [toJson] using h
      obtain ⟨hse, hs⟩ := every_whileLoop.mp hs
      obtain ⟨hte, ht⟩ := every_whileLoop.mp ht
      rw [Expr.eq_of_shown_toJson (hse _ (by simp [operands])) (hte _ (by simp [operands])) hcond,
        ih hs ht hbody]
    | _ => simp [toJson] at h
  | doLoop body condition ih =>
    cases t with
    | doLoop body' condition' =>
      obtain ⟨hall, hcond⟩ : body.map (shown ∘ toJson) = body'.map (shown ∘ toJson) ∧
          condition.toJson.shown = condition'.toJson.shown := by
        simpa [toJson, toJsonAll_eq_map] using h
      obtain ⟨hse, hs⟩ := every_doLoop.mp hs
      obtain ⟨hte, ht⟩ := every_doLoop.mp ht
      rw [Expr.eq_of_shown_toJson (hse _ (by simp [operands])) (hte _ (by simp [operands])) hcond,
        eq_of_map_eq_map (fun a ha b hb => ih a ha (hs a ha) (ht b hb)) hall]
    | _ => simp [toJson] at h
  | forLoop init condition update body ih =>
    cases t with
    | forLoop init' condition' update' body' =>
      obtain ⟨hinit, hcond, hupdate, hbody⟩ : init.toJson.shown = init'.toJson.shown ∧
          condition.toJson.shown = condition'.toJson.shown ∧
          update.toJson.shown = update'.toJson.shown ∧ body.toJson.shown = body'.toJson.shown := by
        simpa [toJson] using h
      obtain ⟨hse, hs⟩ := every_forLoop.mp hs
      obtain ⟨hte, ht⟩ := every_forLoop.mp ht
      rw [Assign.eq_of_shown_toJson (hse _ (by simp [operands])) (hte _ (by simp [operands]))
          (hse _ (by simp [operands])) (hte _ (by simp [operands])) hinit,
        Expr.eq_of_shown_toJson (hse _ (by simp [operands])) (hte _ (by simp [operands])) hcond,
        Expr.eq_of_shown_toJson (hse _ (by simp [operands])) (hte _ (by simp [operands])) hupdate,
        ih hs ht hbody]
    | _ => simp [toJson] at h
  | breakLoop =>
    cases t with
    | breakLoop => rfl
    | _ => simp [toJson] at h
  | continueLoop =>
    cases t with
    | continueLoop => rfl
    | _ => simp [toJson] at h
  | ret value =>
    cases t with
    | ret value' =>
      have hvalue : (ofOption Expr.toJson value).shown = (ofOption Expr.toJson value').shown := by
        simpa [toJson] using h
      have hs := (every_of_substmts rfl).mp hs
      have ht := (every_of_substmts rfl).mp ht
      rw [eq_of_shown_ofOption Expr.shown_toJson_ne_null (fun x hx y hy =>
        Expr.eq_of_shown_toJson (hs x (Option.mem_toList.mpr hx)) (ht y (Option.mem_toList.mpr hy)))
        hvalue]
    | _ => simp [toJson] at h
  | call name args =>
    cases t with
    | call name' args' =>
      obtain ⟨rfl, hall⟩ : name = name' ∧
          args.map (shown ∘ Expr.toJson) = args'.map (shown ∘ Expr.toJson) := by
        simpa [toJson] using h
      have hs := (every_of_substmts rfl).mp hs (.call name args) (List.mem_singleton_self _)
      have ht := (every_of_substmts rfl).mp ht (.call name args') (List.mem_singleton_self _)
      rw [eq_of_map_eq_map (fun a ha b hb => Expr.eq_of_shown_toJson
        ((Expr.every_call.mp hs).2 a ha) ((Expr.every_call.mp ht).2 b hb)) hall]
    | _ => simp [toJson] at h
  | assign a =>
    cases t with
    | assign a' =>
      have ha : a.toJson.shown = a'.toJson.shown := by simpa [toJson] using h
      have hs := (every_of_substmts rfl).mp hs
      have ht := (every_of_substmts rfl).mp ht
      rw [Assign.eq_of_shown_toJson (hs _ (by simp [operands])) (ht _ (by simp [operands]))
        (hs _ (by simp [operands])) (ht _ (by simp [operands])) ha]
    | _ => simp [toJson] at h
  | declare v =>
    cases t with
    | declare v' =>
      have hv : v.toJson.shown = v'.toJson.shown := by simpa [toJson] using h
      have hs := (every_of_substmts rfl).mp hs
      have ht := (every_of_substmts rfl).mp ht
      rw [VarDecl.eq_of_shown_toJson (fun e he => hs e (Option.mem_toList.mpr he))
        (fun e he => ht e (Option.mem_toList.mpr he)) hv]
    | _ => simp [toJson] at h

end Stmt

/-! ### Declarations -/

theorem Param.eq_of_shown_toJson {p q : Param} (h : p.toJson.shown = q.toJson.shown) : p = q := by
  obtain ⟨n, ty, out, inh⟩ := p
  obtain ⟨m, ty', out', inh'⟩ := q
  obtain ⟨rfl, hty, rfl, rfl⟩ : n = m ∧ ty.toJson.shown = ty'.toJson.shown ∧ out = out' ∧
      inh = inh' := by simpa [toJson] using h
  obtain rfl := Ty.eq_of_shown_toJson hty
  rfl

theorem FuncDecl.eq_of_shown_toJson {f g : FuncDecl} (hf : ∀ s ∈ f.body, s.Every Stmt.Unsigned)
    (hg : ∀ s ∈ g.body, s.Every Stmt.Unsigned) (h : f.toJson.shown = g.toJson.shown) : f = g := by
  obtain ⟨n, ty, ps, parent, body⟩ := f
  obtain ⟨m, ty', ps', parent', body'⟩ := g
  obtain ⟨rfl, hty, hps, hparent, hbody⟩ : n = m ∧ ty.toJson.shown = ty'.toJson.shown ∧
      ps.map (shown ∘ Param.toJson) = ps'.map (shown ∘ Param.toJson) ∧
      (ofOption Json.str parent).shown = (ofOption Json.str parent').shown ∧
      body.map (shown ∘ Stmt.toJson) = body'.map (shown ∘ Stmt.toJson) := by
    simpa [toJson] using h
  obtain rfl := Ty.eq_of_shown_toJson hty
  obtain rfl := eq_of_map_eq_map (fun a _ b _ => Param.eq_of_shown_toJson) hps
  have hstr : ∀ x y : String, (Json.str x).shown = (Json.str y).shown → x = y :=
    fun x y hxy => Json.str.inj hxy
  obtain rfl := eq_of_shown_ofOption nofun (fun x _ y _ => hstr x y) hparent
  obtain rfl := eq_of_map_eq_map
    (fun a ha b hb => Stmt.eq_of_shown_toJson (hf a ha) (hg b hb)) hbody
  rfl

namespace Decl

theorem eq_of_shown_toJson {d d' : Decl} (hd : ∀ e ∈ d.exprs, e.Unsigned)
    (hd' : ∀ e ∈ d'.exprs, e.Unsigned) (h : d.toJson.shown = d'.toJson.shown) : d = d' := by
  cases d with
  | func f =>
    cases d' with
    | func g =>
      have hfg : f.toJson.shown = g.toJson.shown := by simpa [toJson] using h
      rw [FuncDecl.eq_of_shown_toJson (every_of_func hd) (every_of_func hd') hfg]
    | var w => simp [toJson] at h
  | var v =>
    cases d' with
    | func g => simp [toJson] at h
    | var w =>
      have hvw : v.toJson.shown = w.toJson.shown := by simpa [toJson] using h
      rw [VarDecl.eq_of_shown_toJson (every_of_var hd) (every_of_var hd') hvw]

end Decl

/-- **Programs without signs in their floats are known by what their JSON shows.** -/
theorem Program.eq_of_shown_toJson {p q : Program} (hp : ∀ e ∈ p.exprs, e.Unsigned)
    (hq : ∀ e ∈ q.exprs, e.Unsigned) (h : p.toJson.shown = q.toJson.shown) : p = q := by
  obtain ⟨ds⟩ := p
  obtain ⟨ds'⟩ := q
  have hds : ds.map (shown ∘ Decl.toJson) = ds'.map (shown ∘ Decl.toJson) := by
    simpa [toJson] using h
  obtain rfl := eq_of_map_eq_map (fun d hd d' hd' => Decl.eq_of_shown_toJson
    (List.forall_mem_flatMap.mp hp d hd) (List.forall_mem_flatMap.mp hq d' hd')) hds
  rfl

end Mt22
