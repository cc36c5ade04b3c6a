import Mt22.Proofs.Program.MadeDecl
import Mt22.Proofs.Program.Subterms

/-!
# Programs that are sound

What every program promises that is made of a tree, also of one that is drawn by hand and with any
text in its tokens: cells have indices and arrays have dimensions, integers and dimensions fit the
64 bits that they are kept in, only functions return `void`, and variables are declared in blocks
only (`Program.Sound`).
-/

namespace Mt22

open Mt22.Tree Mt22.Visit

variable {t : Tree}

/-- A cell has an index, and an integer has 64 bits. -/
def Expr.Sound : Expr → Prop
  | cell _ indices => indices ≠ []
  | int value => -9223372036854775808 ≤ value ∧ value ≤ 9223372036854775807
  | _ => True

/-- An array has a dimension, and its dimensions have 64 bits. -/
def Ty.Sound : Ty → Prop
  | array dimensions _ => dimensions ≠ [] ∧ ∀ n ∈ dimensions, n ≤ 18446744073709551615
  | _ => True

/-- What is promised of a program. -/
structure Program.Sound (p : Program) : Prop where
  exprs : ∀ e ∈ p.exprs, e.Sound
  types : ∀ ty ∈ p.types, ty.Sound
  vars : ∀ v ∈ p.vars, v.ty ≠ .void
  params : ∀ x ∈ p.params, x.ty ≠ .void
  /-- A variable is declared nowhere but among the items of a block. -/
  branches : ∀ s ∈ p.stmts, ∀ b ∈ s.branches, ∀ v, b ≠ .declare v

/-! ### Numbers -/

theorem Literal.integer_range {n : Int} (h : Literal.integer t = .ok n) :
    -9223372036854775808 ≤ n ∧ n ≤ 9223372036854775807 := by
  rw [Literal.integer] at h
  split at h
  · next m hm =>
    cases h
    obtain ⟨-, hn⟩ := Option.filter_eq_some_iff.mp hm
    rw [Number.isSigned64, Bool.and_eq_true] at hn
    exact ⟨of_decide_eq_true hn.1, Int.le_of_lt_add_one (of_decide_eq_true hn.2)⟩
  · cases h

theorem Literal.dimension_range {n : Nat} (h : Literal.dimension t = .ok n) :
    n ≤ 18446744073709551615 := by
  rw [Literal.dimension] at h
  split at h
  · next m hm =>
    cases h
    rw [Number.readUnsigned64?.eq_def] at hm
    split at hm
    · exact Nat.le_of_lt_succ (of_decide_eq_true (Option.filter_eq_some_iff.mp hm).2)
    · exact Nat.le_of_lt_succ (of_decide_eq_true (Option.filter_eq_some_iff.mp hm).2)
  · cases h

/-! ### Expressions -/

namespace Expr

theorem ofLiteral_sound {e : Expr} (h : ofLiteral t = .ok e) : e.Every Sound := by
  obtain ⟨v, rest, -, ⟨n, -, hn, rfl⟩ | ⟨x, -, -, rfl⟩ | ⟨s, -, -, rfl⟩ | ⟨b, -, -, rfl⟩⟩ :=
    ofLiteral_ok h
  · simpa [Every, subexprs, Sound] using Literal.integer_range hn
  all_goals simp [Every, subexprs, Sound]

theorem Made.sound {es : List Expr} (h : Made t es) : ∀ e ∈ es, e.Every Sound := by
  induction h with
  | literal hr he => exact List.forall_mem_singleton.mpr (ofLiteral_sound he)
  | name hr => exact List.forall_mem_singleton.mpr (every_id.mpr trivial)
  | chain k hk hr hc hlen hl hps ihl ihps =>
    refine List.forall_mem_singleton.mpr (every_foldl (fun _ _ _ => trivial) ?_ ?_)
    · exact List.forall_mem_singleton.mp ihl
    · intro p hp
      obtain ⟨d, hd, hpd⟩ := List.mem_map.mp (List.of_mem_zip hp).2
      rw [← hpd]
      exact List.forall_mem_singleton.mp (ihps d hd)
  | operand s hr hc hd he ih => exact ih
  | sign s hr hc ho hd hop he ih =>
    exact List.forall_mem_singleton.mpr (every_unary.mpr ⟨trivial, List.forall_mem_singleton.mp ih⟩)
  | primary hr hc hp hmem he ih => exact ih
  | arguments hr hc hes ih =>
    intro e he
    obtain ⟨c, hmem, rfl⟩ := List.mem_map.mp he
    exact List.forall_mem_singleton.mp (ih c hmem)
  | @array t a es hr hc ha hes hnone ih =>
    refine List.forall_mem_singleton.mpr (every_array.mpr ⟨trivial, ?_⟩)
    cases a with
    | none => simp [hnone rfl]
    | some b => exact ih b rfl
  | cell hr hc hi ha hes hne ih =>
    exact List.forall_mem_singleton.mpr (every_cell.mpr ⟨hne, ih⟩)
  | @call t i a es hr hc hi ha hes hnone ih =>
    refine List.forall_mem_singleton.mpr (every_call.mpr ⟨trivial, ?_⟩)
    cases a with
    | none => simp [hnone rfl]
    | some b => exact ih b rfl

theorem ofTree_sound {e : Expr} (hr : t.rule? = some .expression) (h : ofTree t = .ok e) :
    e.Every Sound := List.forall_mem_singleton.mp (made_of_ofTree hr h).sound

theorem ofCell_sound {n : String} {es : List Expr} (hr : t.rule? = some .arrayCell)
    (h : ofCell t = .ok (n, es)) : (cell n es).Every Sound :=
  List.forall_mem_singleton.mp ((recovered t).cell hr h).sound

theorem ofCall_sound {n : String} {es : List Expr} (hr : t.rule? = some .funcCall)
    (h : ofCall t = .ok (n, es)) : (call n es).Every Sound :=
  List.forall_mem_singleton.mp ((recovered t).call hr h).sound

end Expr

/-! ### Types, variables and assignments -/

namespace Ty

theorem ofVarType_sound {ty : Ty} (h : ofVarType t = .ok ty) : ty.Sound ∧ ty ≠ .void := by
  obtain ⟨f, rest, -, ⟨p, -, -, rfl⟩ | ⟨-, rfl⟩ | ⟨-, hf⟩⟩ := ofVarType_ok h
  · exact ⟨trivial, by simp⟩
  · exact ⟨trivial, by simp⟩
  · obtain ⟨d, p, ns, q, -, -, -, hns, hne, -, rfl⟩ := ofArrayType_ok hf
    refine ⟨⟨hne, ?_⟩, by simp⟩
    intro n hn
    obtain ⟨c, -, hc⟩ := exists_of_mem_mapM hns hn
    exact Literal.dimension_range hc

theorem ofFuncType_sound {ty : Ty} (h : ofFuncType t = .ok ty) : ty.Sound := by
  rcases ofFuncType_ok h with ⟨v, rest, -, -, rfl⟩ | ⟨v, -, -, hv⟩
  · trivial
  · exact (ofVarType_sound hv).1

end Ty

/-- What is promised of a variable. -/
structure VarDecl.Sound (v : VarDecl) : Prop where
  ty : v.ty.Sound
  ne_void : v.ty ≠ .void
  init : ∀ e ∈ v.init.toList, e.Every Expr.Sound

theorem VarDecl.ofGroup_sound {vs : List VarDecl} (h : ofGroup t = .ok vs) : ∀ v ∈ vs, v.Sound := by
  obtain ⟨n, ty, i, ns, τ, -, -, -, hi, -, hτ, hvs⟩ := ofGroup_ok h
  obtain ⟨hsound, hvoid⟩ := Ty.ofVarType_sound hτ
  intro v hv
  rcases hvs with ⟨-, rfl⟩ | ⟨l, es, rfl, hes, -, rfl⟩
  · obtain ⟨x, -, rfl⟩ := List.mem_map.mp hv
    exact ⟨hsound, hvoid, by simp⟩
  · obtain ⟨hrules, hes⟩ := values_ok hes
    obtain ⟨g, rfl, hg⟩ := exists_map_of_mapM hes
    rw [List.zipWith_map_right, ← List.map_uncurry_zip_eq_zipWith] at hv
    obtain ⟨⟨x, c⟩, hc, rfl⟩ := List.mem_map.mp hv
    have hmem := (List.of_mem_zip hc).2
    refine ⟨hsound, hvoid, ?_⟩
    simpa using Expr.ofTree_sound (hrules c hmem) (hg c hmem)

theorem Assign.ofTree_sound {a : Assign} (h : ofTree t = .ok a) :
    a.target.toExpr.Every Expr.Sound ∧ a.value.Every Expr.Sound := by
  obtain ⟨l, e, -, -, he, hl, hv⟩ := ofTree_ok h
  refine ⟨?_, Expr.ofTree_sound he hv⟩
  obtain ⟨p, -, ⟨-, hp⟩ | ⟨n, es, hr, hp, hx⟩⟩ := Target.ofTree_ok hl
  · rw [hp]
    exact Expr.every_id.mpr trivial
  · rw [hx]
    exact Expr.ofCell_sound hr hp

/-! ### Statements -/

namespace Stmt

/-- What is promised of a statement, apart from the statements in it. -/
structure Sound (s : Stmt) : Prop where
  operands : ∀ e ∈ s.operands, e.Every Expr.Sound
  declared : ∀ v ∈ s.declared, v.Sound
  branches : ∀ b ∈ s.branches, ∀ v, b ≠ .declare v

/-- Only the node of a variable group declares variables, and a block as it holds one. -/
theorem Made.ne_declare {ss : List Stmt} (h : Made t ss) (hv : t.rule? ≠ some .varDecl)
    (hb : t.rule? ≠ some .block) : ∀ s ∈ ss, ∀ v, s ≠ .declare v := by
  induction h with
  | @statement t f r s hr hc hf hmem hne hs ih =>
    refine ih ?_ ?_
    · rintro heq
      rw [hf, Option.some.injEq] at heq
      subst heq
      exact absurd hmem (by decide)
    · rw [hf]
      simpa using hne
  | block hr => exact absurd hr hb
  | group hr => exact absurd hr hv
  | _ => simp

/-- A branch is made of the node of a statement, and declares nothing. -/
theorem Made.branch {s : Stmt} (h : Made t [s]) (hr : t.rule? = some .statement) :
    ∀ v, s ≠ .declare v :=
  List.forall_mem_singleton.mp (h.ne_declare (by rw [hr]; decide) (by rw [hr]; decide))

theorem Made.sound {ss : List Stmt} (h : Made t ss) : ∀ s ∈ ss, s.Every Sound := by
  induction h with
  | statement hr hc hf hmem hne hs ih => exact ih
  | nested hr hc hb hss ih =>
    exact List.forall_mem_singleton.mpr (every_block.mpr ⟨⟨nofun, nofun, nofun⟩, ih⟩)
  | block hr hc hss ih => exact List.forall_mem_flatMap.mpr ih
  | group hr hvs =>
    refine List.forall_mem_map.mpr fun v hv => (every_of_substmts rfl).mpr ?_
    have hsound := VarDecl.ofGroup_sound hvs v hv
    exact ⟨hsound.init, List.forall_mem_singleton.mpr hsound, nofun⟩
  | ifThen hr hc he ha hx hy ih =>
    refine List.forall_mem_singleton.mpr (every_ifThen.mpr ⟨?_, List.forall_mem_singleton.mp ih⟩)
    exact ⟨List.forall_mem_singleton.mpr (Expr.ofTree_sound he hx), nofun,
      List.forall_mem_singleton.mpr (hy.branch ha)⟩
  | ifElse hr hc he ha hb hx hy hz ihy ihz =>
    refine List.forall_mem_singleton.mpr (every_ifElse.mpr
      ⟨?_, List.forall_mem_singleton.mp ihy, List.forall_mem_singleton.mp ihz⟩)
    refine ⟨List.forall_mem_singleton.mpr (Expr.ofTree_sound he hx), nofun, ?_⟩
    exact List.forall_mem_cons.mpr ⟨hy.branch ha, List.forall_mem_singleton.mpr (hz.branch hb)⟩
  | forLoop hr hc ha hcond hu hb hi hx hy hz ih =>
    refine List.forall_mem_singleton.mpr (every_forLoop.mpr ⟨?_, List.forall_mem_singleton.mp ih⟩)
    refine ⟨?_, nofun, List.forall_mem_singleton.mpr (hz.branch hb)⟩
    obtain ⟨htarget, hvalue⟩ := Assign.ofTree_sound hi
    simp only [Stmt.operands, List.forall_mem_cons]
    exact ⟨htarget, hvalue, Expr.ofTree_sound hcond hx, Expr.ofTree_sound hu hy, nofun⟩
  | whileLoop hr hc hcond hb hx hz ih =>
    refine List.forall_mem_singleton.mpr (every_whileLoop.mpr ⟨?_, List.forall_mem_singleton.mp ih⟩)
    exact ⟨List.forall_mem_singleton.mpr (Expr.ofTree_sound hcond hx), nofun,
      List.forall_mem_singleton.mpr (hz.branch hb)⟩
  | doLoop hr hc hb hcond hss hx ih =>
    refine List.forall_mem_singleton.mpr (every_doLoop.mpr ⟨?_, ih⟩)
    exact ⟨List.forall_mem_singleton.mpr (Expr.ofTree_sound hcond hx), nofun, nofun⟩
  | breakLoop hr | continueLoop hr | ret hr hc =>
    exact List.forall_mem_singleton.mpr ((every_of_substmts rfl).mpr ⟨nofun, nofun, nofun⟩)
  | retValue hr hc he hx =>
    refine List.forall_mem_singleton.mpr ((every_of_substmts rfl).mpr ⟨?_, nofun, nofun⟩)
    exact List.forall_mem_singleton.mpr (Expr.ofTree_sound he hx)
  | call hr hc hcall hes =>
    refine List.forall_mem_singleton.mpr ((every_of_substmts rfl).mpr ⟨?_, nofun, nofun⟩)
    exact List.forall_mem_singleton.mpr (Expr.ofCall_sound hcall hes)
  | assign hr hc ha hx =>
    obtain ⟨htarget, hvalue⟩ := Assign.ofTree_sound hx
    refine List.forall_mem_singleton.mpr ((every_of_substmts rfl).mpr ⟨?_, nofun, nofun⟩)
    exact List.forall_mem_cons.mpr ⟨htarget, List.forall_mem_singleton.mpr hvalue⟩

end Stmt

/-! ### Declarations and programs -/

namespace Decl

/-- What is promised of a declaration. -/
structure Sound (d : Decl) : Prop where
  stmts : ∀ s ∈ d.stmts, s.Sound
  vars : ∀ v ∈ d.vars, v.Sound
  params : ∀ x ∈ d.params, x.ty.Sound ∧ x.ty ≠ .void
  returnType : ∀ ty ∈ d.returnType, ty.Sound

theorem func_sound {f : FuncDecl} (h : FuncDecl.ofTree t = .ok f) : (func f).Sound := by
  obtain ⟨n, ty, l, p, b, -, -, -, -, -, hb, -, hty, hl, hnone, -, hbody⟩ := FuncDecl.ofTree_ok h
  have hstmts : ∀ s ∈ Stmt.substmtsAll f.body, s.Sound :=
    Stmt.forall_mem_substmtsAll.mpr ((Stmt.recovered b).block hb hbody).sound
  refine ⟨hstmts, ?_, ?_, List.forall_mem_singleton.mpr (Ty.ofFuncType_sound hty)⟩
  · intro v hv
    obtain ⟨s, hs, hv⟩ := List.mem_flatMap.mp hv
    exact (hstmts s hs).declared v hv
  · intro x hx
    cases l with
    | none =>
      rw [params, hnone rfl] at hx
      cases hx
    | some u =>
      obtain ⟨-, hps⟩ := Param.listOfTree_ok (hl u rfl)
      obtain ⟨c, -, hc⟩ := exists_of_mem_mapM hps hx
      obtain ⟨i, o, m, ty, -, -, -, -, -, hty, -⟩ := Param.ofTree_ok hc
      exact Ty.ofVarType_sound hty

theorem var_sound {v : VarDecl} (h : v.Sound) : (var v).Sound :=
  ⟨nofun, List.forall_mem_singleton.mpr h, nofun, nofun⟩

theorem ofTree_sound {ds : List Decl} (h : ofTree t = .ok ds) : ∀ d ∈ ds, d.Sound := by
  obtain ⟨c, -, ⟨f, -, hf, rfl⟩ | ⟨vs, -, hvs, rfl⟩⟩ := ofTree_ok h
  · exact List.forall_mem_singleton.mpr (func_sound hf)
  · exact List.forall_mem_map.mpr fun v hv => var_sound (VarDecl.ofGroup_sound hvs v hv)

theorem Sound.exprs {d : Decl} (h : d.Sound) : ∀ e ∈ d.exprs, e.Sound := by
  intro e he
  cases d with
  | func f =>
    obtain ⟨x, hx, he⟩ := List.mem_flatMap.mp he
    obtain ⟨s, hs, hx⟩ := List.mem_flatMap.mp hx
    exact (h.stmts s hs).operands x hx e he
  | var v =>
    obtain ⟨x, hx, he⟩ := List.mem_flatMap.mp he
    exact (h.vars v List.mem_cons_self).init x hx e he

end Decl

/-- **Programs are sound**, whatever the tree that they are made of. -/
theorem Program.sound_of_ofTree {p : Program} (h : Program.ofTree t = .ok p) : p.Sound := by
  obtain ⟨ds, e, dss, -, -, -, hdss, hp⟩ := Program.ofTree_ok h
  have hdecls : ∀ d ∈ p.decls, d.Sound := by
    intro d hd
    rw [hp] at hd
    obtain ⟨bs, hbs, hd⟩ := List.mem_flatten.mp hd
    obtain ⟨c, -, hc⟩ := exists_of_mem_mapM hdss hbs
    exact Decl.ofTree_sound hc d hd
  have hvars : ∀ v ∈ p.vars, v.Sound := by
    intro v hv
    obtain ⟨d, hd, hv⟩ := List.mem_flatMap.mp hv
    exact (hdecls d hd).vars v hv
  have hparams : ∀ x ∈ p.params, x.ty.Sound ∧ x.ty ≠ .void := by
    intro x hx
    obtain ⟨d, hd, hx⟩ := List.mem_flatMap.mp hx
    exact (hdecls d hd).params x hx
  refine ⟨?_, ?_, fun v hv => (hvars v hv).ne_void, fun x hx => (hparams x hx).2, ?_⟩
  · intro e he
    obtain ⟨d, hd, he⟩ := List.mem_flatMap.mp he
    exact (hdecls d hd).exprs e he
  · intro ty hty
    simp only [Program.types, List.mem_append, List.mem_flatMap, List.mem_map] at hty
    rcases hty with (⟨d, hd, hty⟩ | ⟨x, hx, rfl⟩) | ⟨v, hv, rfl⟩
    · exact (hdecls d hd).returnType ty hty
    · exact (hparams x hx).1
    · exact (hvars v hv).ty
  · intro s hs
    obtain ⟨d, hd, hs⟩ := List.mem_flatMap.mp hs
    exact ((hdecls d hd).stmts s hs).branches

/-- A table of two cells whose initializer is the least integer.  The sign stands in its token, where
no source text can have one. -/
def leastInteger : Tree :=
  let literal : Tree := .node .literal 0 0 [.node .intLit 0 0 [.token "-9223372036854775808".toList]]
  let value : Tree := ([0, 1, 2, 3, 4, 5, 6, 7].map Expr.tierRule).foldr (.node · 0 0 [·]) literal
  let size : Tree := .node .dimensions 0 0 [.node .intLit 0 0 [.token "2".toList]]
  let table : Tree := .node .arrayType 0 0 [size, .node .primType 0 0 [.node .kwInteger 0 0 []]]
  let names : Tree := .node .nameList 0 0 [.node .identifier 0 0 [.token "x".toList]]
  let group : Tree := .node .varDecl 0 0
    [names, .node .varType 0 0 [table], .node .initializers 0 0 [value]]
  .node .program 0 0 [.node .declaration 0 0 [group], .node .eoi 0 0 []]

theorem Program.sound_of_ofTree_least : ∃ p, Program.ofTree leastInteger = .ok p ∧
    .int (-9223372036854775808) ∈ p.exprs ∧ p.Sound := by
  have hok : ((Program.ofTree leastInteger).toOption.any fun p => p.exprs.any fun
      | .int n => n = -9223372036854775808
      | _ => false) = true := by decide +kernel
  cases h : Program.ofTree leastInteger with
  | error f => rw [h] at hok; cases hok
  | ok p =>
    rw [h] at hok
    obtain ⟨e, he, hint⟩ := List.any_eq_true.mp hok
    split at hint
    · next n =>
      obtain rfl := of_decide_eq_true hint
      exact ⟨p, rfl, he, Program.sound_of_ofTree h⟩
    · cases hint

end Mt22
