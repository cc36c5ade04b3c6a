import Mt22.Program.OfTree.Decl
import Mt22.Proofs.Program.OfExpr

/-!
# What statements and declarations are made of

The equations of types, statements, declarations and programs, for nodes whose children are those
that the grammar promises.
-/

namespace Mt22

open Mt22.Tree

variable {t : Tree}

/-! ### Types -/

/-- The rule of the keyword that names a type. -/
def PrimTy.rule : PrimTy → Rule
  | integer => .kwInteger
  | float => .kwFloat
  | string => .kwString
  | boolean => .kwBoolean

theorem PrimTy.ofTree_eq {k : Tree} {p : PrimTy} (h : t.children = [k]) (hk : k.rule? = some p.rule) :
    PrimTy.ofTree t = .ok p := by
  obtain ⟨c, hc, rfl⟩ := childList_one h
  cases p <;> simp [PrimTy.ofTree, visit, hc, c.rule_eq hk, PrimTy.rule]

theorem Ty.ofArrayType_eq {ds p : Tree} (h : t.children = [ds, p])
    (hds : ds.rule? = some .dimensions) (hp : p.rule? = some .primType)
    (hd : ∀ d ∈ ds.children, d.rule? = some .intLit) (hne : ds.children ≠ []) :
    Ty.ofArrayType t = (do
      let ns ← ds.children.mapM Literal.dimension
      let e ← PrimTy.ofTree p
      return .array ns e) := by
  obtain ⟨c, e, hc, rfl, rfl⟩ := childList_two h
  simp only [Ty.ofArrayType, visitAll, visit, hc, Visit.bind_run, Visit.expect_cons (c.rule_eq hds),
    Visit.ok_bind, Visit.lift_run, Visit.many_all (childList_rule hd), Visit.map_ok, Visit.mapM_run,
    childList_map]
  cases hns : c.tree.children.mapM Literal.dimension with
  | error f => rfl
  | ok ns =>
    have hempty : ns.isEmpty = false := by
      rw [← Bool.not_eq_true, List.isEmpty_iff_length_eq_zero, Visit.length_of_mapM hns,
        List.length_eq_zero_iff]
      exact hne
    simp only [hempty, Bool.false_eq_true, if_false, Visit.ok_bind, Visit.bind_run,
      Visit.expect_cons (e.rule_eq hp), Visit.lift_run]
    cases PrimTy.ofTree e.tree <;> rfl

theorem Ty.ofVarType_eq {f : Tree} {r : Rule} :
    t.children = [f] → f.rule? = some r → r ∈ [.primType, .kwAuto, .arrayType] →
      Ty.ofVarType t = match r with
      | .primType => .prim <$> PrimTy.ofTree f
      | .kwAuto => .ok .auto
      | .arrayType => Ty.ofArrayType f
      | r => .error (.shape t (.unexpected .typeForm r)) := by
  intro h hf hr
  obtain ⟨c, hc, rfl⟩ := childList_one h
  simp only [Ty.ofVarType, visit, hc, Visit.bind_run, Visit.next_cons, Visit.ok_bind, c.rule_eq hf]
  simp only [List.mem_cons, List.not_mem_nil, or_false] at hr
  rcases hr with rfl | rfl | rfl
  · cases PrimTy.ofTree c.tree <;> rfl
  · rfl
  · cases Ty.ofArrayType c.tree <;> rfl

theorem Ty.ofFuncType_void {k : Tree} (h : t.children = [k]) (hk : k.rule? = some .kwVoid) :
    Ty.ofFuncType t = .ok .void := by
  obtain ⟨c, hc, rfl⟩ := childList_one h
  simp [Ty.ofFuncType, visit, hc, Visit.flag, Visit.optional_cons, c.rule_eq hk]

theorem Ty.ofFuncType_var {v : Tree} (h : t.children = [v]) (hv : v.rule? = some .varType) :
    Ty.ofFuncType t = Ty.ofVarType v := by
  obtain ⟨c, hc, rfl⟩ := childList_one h
  simp only [Ty.ofFuncType, visit, hc, Visit.flag, Visit.bind_run, Visit.optional_cons, c.rule_eq hv,
    reduceCtorEq, if_false, Visit.ok_bind, Visit.pure_run, Option.isSome_none, Bool.false_eq_true,
    Visit.expect_cons (c.rule_eq hv), Visit.lift_run]
  cases Ty.ofVarType c.tree <;> rfl

/-! ### Variables and assignments -/

theorem VarDecl.names_eq (h : ∀ c ∈ t.children, c.rule? = some .identifier) :
    VarDecl.names t = .ok (t.children.map Tree.string) := by
  rw [← childList_map, List.map_map]
  simp [VarDecl.names, visit, Visit.many_all (childList_rule h), Function.comp_def]

theorem VarDecl.values_eq (h : ∀ c ∈ t.children, c.rule? = some .expression) :
    VarDecl.values t = t.children.mapM Expr.ofTree := by
  simp only [VarDecl.values, visitAll, visit, Visit.bind_run, Visit.many_all (childList_rule h),
    Visit.ok_bind, Visit.mapM_run, childList_map]
  cases t.children.mapM Expr.ofTree <;> rfl

theorem VarDecl.ofGroup_two {ns ty : Tree} (h : t.children = [ns, ty])
    (hns : ns.rule? = some .nameList) (hty : ty.rule? = some .varType) :
    VarDecl.ofGroup t = (do
      let names ← VarDecl.names ns
      let type ← Ty.ofVarType ty
      return names.map fun n => ⟨n, type, none⟩) := by
  obtain ⟨c, d, hc, rfl, rfl⟩ := childList_two h
  simp only [VarDecl.ofGroup, visitAll, visit, hc, Visit.bind_run, Visit.expect_cons (c.rule_eq hns),
    Visit.ok_bind, Visit.lift_run]
  cases VarDecl.names c.tree with
  | error f => rfl
  | ok names =>
    simp only [Visit.ok_bind, Visit.expect_cons (d.rule_eq hty)]
    cases Ty.ofVarType d.tree <;> rfl

theorem VarDecl.ofGroup_three {ns ty vs : Tree} (h : t.children = [ns, ty, vs])
    (hns : ns.rule? = some .nameList) (hty : ty.rule? = some .varType)
    (hvs : vs.rule? = some .initializers) :
    VarDecl.ofGroup t = (do
      let names ← VarDecl.names ns
      let type ← Ty.ofVarType ty
      let values ← VarDecl.values vs
      if values.length ≠ names.length then
        .error (.initializerCount t names.length values.length)
      else return List.zipWith (fun n e => ⟨n, type, some e⟩) names values) := by
  obtain ⟨c, d, e, hc, rfl, rfl, rfl⟩ := childList_three h
  simp only [VarDecl.ofGroup, visitAll, visit, hc, Visit.bind_run, Visit.expect_cons (c.rule_eq hns),
    Visit.ok_bind, Visit.lift_run]
  cases VarDecl.names c.tree with
  | error f => rfl
  | ok names =>
    simp only [Visit.ok_bind, Visit.expect_cons (d.rule_eq hty)]
    cases Ty.ofVarType d.tree with
    | error f => rfl
    | ok type =>
      simp only [Visit.ok_bind, Visit.optional_cons, e.rule_eq hvs, if_true, Visit.bind_run,
        Visit.lift_run]
      cases VarDecl.values e.tree with
      | error f => rfl
      | ok values =>
        by_cases hlen : values.length = names.length
        · simp [hlen]
        · simp [hlen]
          rfl

theorem Assign.ofTree_eq {l e : Tree} (h : t.children = [l, e]) (hl : l.rule? = some .lhs)
    (he : e.rule? = some .expression) :
    Assign.ofTree t = (do
      let target ← Target.ofTree l
      let value ← Expr.ofTree e
      return ⟨target, value⟩) := by
  obtain ⟨c, d, hc, rfl, rfl⟩ := childList_two h
  simp only [Assign.ofTree, visitAll, visit, hc, Visit.bind_run, Visit.expect_cons (c.rule_eq hl),
    Visit.ok_bind, Visit.lift_run]
  cases Target.ofTree c.tree with
  | error f => rfl
  | ok target =>
    simp only [Visit.ok_bind, Visit.expect_cons (d.rule_eq he)]
    cases Expr.ofTree d.tree <;> rfl

/-! ### Statements -/

namespace Stmt

theorem ofReturn_none (h : t.children = []) : ofReturn t = .ok (.ret none) := by
  simp [ofReturn, visitAll, visit, childList_nil h]

theorem ofReturn_some {e : Tree} (h : t.children = [e]) (he : e.rule? = some .expression) :
    ofReturn t = (fun x => .ret (some x)) <$> Expr.ofTree e := by
  obtain ⟨c, hc, rfl⟩ := childList_one h
  simp only [ofReturn, visitAll, visit, hc, Visit.bind_run, Visit.optional_cons, c.rule_eq he,
    if_true, Visit.ok_bind, Visit.lift_run]
  cases Expr.ofTree c.tree <;> rfl

theorem ofCall_eq {c : Tree} (h : t.children = [c]) (hc : c.rule? = some .funcCall) :
    ofCall t = (fun p => .call p.1 p.2) <$> Expr.ofCall c := by
  obtain ⟨c, hcs, rfl⟩ := childList_one h
  simp only [ofCall, visitAll, visit, hcs, Visit.bind_run, Visit.expect_cons (c.rule_eq hc),
    Visit.ok_bind, Visit.lift_run]
  cases Expr.ofCall c.tree <;> rfl

theorem ofAssign_eq {a : Tree} (h : t.children = [a]) (ha : a.rule? = some .assign) :
    ofAssign t = .assign <$> Assign.ofTree a := by
  obtain ⟨c, hc, rfl⟩ := childList_one h
  simp only [ofAssign, visitAll, visit, hc, Visit.bind_run, Visit.expect_cons (c.rule_eq ha),
    Visit.ok_bind, Visit.lift_run]
  cases Assign.ofTree c.tree <;> rfl

/-- The rules of the forms of statements. -/
def formRules : List Rule :=
  [.ifStmt, .forStmt, .whileStmt, .doWhileStmt, .breakStmt, .continueStmt, .returnStmt, .block,
    .callStmt, .assignStmt]

/-- A statement is what its only child is. -/
theorem ofTree_eq {f : Tree} {r : Rule} :
    t.children = [f] → f.rule? = some r → r ∈ formRules →
      ofTree t = match r with
      | .ifStmt => ofIf f
      | .forStmt => ofFor f
      | .whileStmt => ofWhile f
      | .doWhileStmt => ofDo f
      | .breakStmt => .ok .breakLoop
      | .continueStmt => .ok .continueLoop
      | .returnStmt => ofReturn f
      | .block => .block <$> ofBlock f
      | .callStmt => ofCall f
      | .assignStmt => ofAssign f
      | r => .error (.shape t (.unexpected .statement r)) := by
  intro h hf hr
  obtain ⟨c, hc, rfl⟩ := childList_one h
  rw [ofTree]
  simp only [visitAll, visit, hc, Visit.bind_run, Visit.next_cons, Visit.ok_bind, c.rule_eq hf]
  simp only [formRules, List.mem_cons, List.not_mem_nil, or_false] at hr
  rcases hr with rfl | rfl | rfl | rfl | rfl | rfl | rfl | rfl | rfl | rfl
  · cases ofIf c.tree <;> rfl
  · cases ofFor c.tree <;> rfl
  · cases ofWhile c.tree <;> rfl
  · cases ofDo c.tree <;> rfl
  · rfl
  · rfl
  · cases ofReturn c.tree <;> rfl
  · cases ofBlock c.tree <;> rfl
  · cases ofCall c.tree <;> rfl
  · cases ofAssign c.tree <;> rfl

theorem ofIf_two {e a : Tree} (h : t.children = [e, a]) (he : e.rule? = some .expression)
    (ha : a.rule? = some .statement) :
    ofIf t = (do
      let condition ← Expr.ofTree e
      let thenBranch ← ofTree a
      return .ifThen condition thenBranch) := by
  obtain ⟨c, d, hc, rfl, rfl⟩ := childList_two h
  rw [ofIf]
  simp only [visitAll, visit, hc, Visit.bind_run, Visit.expect_cons (c.rule_eq he), Visit.ok_bind,
    Visit.lift_run]
  cases Expr.ofTree c.tree with
  | error f => rfl
  | ok condition =>
    simp only [Visit.ok_bind, Visit.expect_cons (d.rule_eq ha)]
    cases ofTree d.tree <;> rfl

theorem ofIf_three {e a b : Tree} (h : t.children = [e, a, b]) (he : e.rule? = some .expression)
    (ha : a.rule? = some .statement) (hb : b.rule? = some .statement) :
    ofIf t = (do
      let condition ← Expr.ofTree e
      let thenBranch ← ofTree a
      let elseBranch ← ofTree b
      return .ifElse condition thenBranch elseBranch) := by
  obtain ⟨c, d, d', hc, rfl, rfl, rfl⟩ := childList_three h
  rw [ofIf]
  simp only [visitAll, visit, hc, Visit.bind_run, Visit.expect_cons (c.rule_eq he), Visit.ok_bind,
    Visit.lift_run]
  cases Expr.ofTree c.tree with
  | error f => rfl
  | ok condition =>
    simp only [Visit.ok_bind, Visit.expect_cons (d.rule_eq ha)]
    cases ofTree d.tree with
    | error f => rfl
    | ok thenBranch =>
      simp only [Visit.ok_bind, Visit.optional_cons, d'.rule_eq hb, if_true, Visit.bind_run,
        Visit.lift_run]
      cases ofTree d'.tree <;> rfl

theorem ofFor_eq {a e u b : Tree} (h : t.children = [a, e, u, b]) (ha : a.rule? = some .assign)
    (he : e.rule? = some .expression) (hu : u.rule? = some .expression)
    (hb : b.rule? = some .statement) :
    ofFor t = (do
      let init ← Assign.ofTree a
      let condition ← Expr.ofTree e
      let update ← Expr.ofTree u
      let body ← ofTree b
      return .forLoop init condition update body) := by
  obtain ⟨c, d, d', d'', hc, rfl, rfl, rfl, rfl⟩ := childList_four h
  rw [ofFor]
  simp only [visitAll, visit, hc, Visit.bind_run, Visit.expect_cons (c.rule_eq ha), Visit.ok_bind,
    Visit.lift_run]
  cases Assign.ofTree c.tree with
  | error f => rfl
  | ok init =>
    simp only [Visit.ok_bind, Visit.expect_cons (d.rule_eq he)]
    cases Expr.ofTree d.tree with
    | error f => rfl
    | ok condition =>
      simp only [Visit.ok_bind, Visit.expect_cons (d'.rule_eq hu)]
      cases Expr.ofTree d'.tree with
      | error f => rfl
      | ok update =>
        simp only [Visit.ok_bind, Visit.expect_cons (d''.rule_eq hb)]
        cases ofTree d''.tree <;> rfl

theorem ofWhile_eq {e b : Tree} (h : t.children = [e, b]) (he : e.rule? = some .expression)
    (hb : b.rule? = some .statement) :
    ofWhile t = (do
      let condition ← Expr.ofTree e
      let body ← ofTree b
      return .whileLoop condition body) := by
  obtain ⟨c, d, hc, rfl, rfl⟩ := childList_two h
  rw [ofWhile]
  simp only [visitAll, visit, hc, Visit.bind_run, Visit.expect_cons (c.rule_eq he), Visit.ok_bind,
    Visit.lift_run]
  cases Expr.ofTree c.tree with
  | error f => rfl
  | ok condition =>
    simp only [Visit.ok_bind, Visit.expect_cons (d.rule_eq hb)]
    cases ofTree d.tree <;> rfl

theorem ofDo_eq {b e : Tree} (h : t.children = [b, e]) (hb : b.rule? = some .block)
    (he : e.rule? = some .expression) :
    ofDo t = (do
      let body ← ofBlock b
      let condition ← Expr.ofTree e
      return .doLoop body condition) := by
  obtain ⟨c, d, hc, rfl, rfl⟩ := childList_two h
  rw [ofDo]
  simp only [visitAll, visit, hc, Visit.bind_run, Visit.expect_cons (c.rule_eq hb), Visit.ok_bind,
    Visit.lift_run]
  cases ofBlock c.tree with
  | error f => rfl
  | ok body =>
    simp only [Visit.ok_bind, Visit.expect_cons (d.rule_eq he)]
    cases Expr.ofTree d.tree <;> rfl

/-- The statements of an item of a block. -/
def ofItem (i : Tree) : Except Fault (List Stmt) :=
  if i.rule? = some .varDecl then (fun vs => vs.map .declare) <$> VarDecl.ofGroup i
  else (fun s => [s]) <$> ofTree i

theorem ofBlock_eq
    (h : ∀ c ∈ t.children, c.rule? = some .varDecl ∨ c.rule? = some .statement) :
    ofBlock t = List.flatten <$> t.children.mapM ofItem := by
  rw [ofBlock, Visit.mapM_congr (g := fun c : t.Child => ofItem c.tree), ← childList_map,
    List.mapM_map]
  · show _ = List.flatten <$> t.childList.mapM fun c => ofItem c.tree
    cases t.childList.mapM fun c => ofItem c.tree <;> rfl
  · intro c hc
    have hmem : c.tree ∈ t.children := by
      rw [← childList_map]
      exact List.mem_map_of_mem hc
    rcases h c.tree hmem with hr | hr
    · rw [c.rule_eq hr, ofItem, if_pos hr]
      cases VarDecl.ofGroup c.tree <;> rfl
    · rw [c.rule_eq hr, ofItem, if_neg (by rw [hr]; decide)]
      cases ofTree c.tree <;> rfl

end Stmt

/-! ### Declarations -/

/-- The marks of a parameter are the children that stand before its name. -/
theorem Param.ofTree_eq {i o : Option Tree} {n ty : Tree}
    (h : t.children = i.toList ++ (o.toList ++ [n, ty]))
    (hi : ∀ x ∈ i, x.rule? = some .kwInherit) (ho : ∀ x ∈ o, x.rule? = some .kwOut)
    (hn : n.rule? = some .identifier) (hty : ty.rule? = some .varType) :
    Param.ofTree t = (fun type => ⟨n.string, type, o.isSome, i.isSome⟩) <$> Ty.ofVarType ty := by
  rw [← childList_map] at h
  have hhead : ∃ x xs, o.toList ++ [n, ty] = x :: xs ∧ x.rule? ≠ some .kwInherit := by
    cases o with
    | none => exact ⟨n, [ty], rfl, by rw [hn]; decide⟩
    | some x => exact ⟨x, [n, ty], rfl, by rw [ho x rfl]; decide⟩
  obtain ⟨x, xs, hx, hxr⟩ := hhead
  obtain ⟨ci, cs, h1, rfl, hcs⟩ := Visit.optional_of_map (hx ▸ h) hi hxr
  obtain ⟨co, ds, h2, rfl, hds⟩ :=
    Visit.optional_of_map (hcs.trans hx.symm) ho (by rw [hn]; decide)
  obtain ⟨c, es, rfl, rfl, hes⟩ := cons_of_map_tree hds
  obtain ⟨d, fs, rfl, rfl, hfs⟩ := cons_of_map_tree hes
  rw [List.map_eq_nil_iff.mp hfs] at h2
  simp only [Param.ofTree, visitAll, visit, Visit.flag, Visit.bind_run, h1, Visit.ok_bind,
    Visit.pure_run, h2, Visit.expect_cons (c.rule_eq hn), Visit.expect_cons (d.rule_eq hty),
    Visit.lift_run, Option.isSome_map]
  cases Ty.ofVarType d.tree <;> rfl

theorem Param.listOfTree_eq (h : ∀ c ∈ t.children, c.rule? = some .paramDecl) :
    Param.listOfTree t = t.children.mapM Param.ofTree := by
  simp only [Param.listOfTree, visitAll, visit, Visit.bind_run, Visit.many_all (childList_rule h),
    Visit.ok_bind, Visit.mapM_run, childList_map]
  cases t.children.mapM Param.ofTree <;> rfl

/-- The parameters of a function that may have none. -/
def Param.listOf : Option Tree → Except Fault (List Param)
  | none => .ok []
  | some ps => Param.listOfTree ps

theorem FuncDecl.ofTree_eq {n ty b : Tree} {ps parent : Option Tree}
    (h : t.children = n :: ty :: (ps.toList ++ (parent.toList ++ [b])))
    (hn : n.rule? = some .identifier) (hty : ty.rule? = some .funcType)
    (hps : ∀ x ∈ ps, x.rule? = some .paramList) (hp : ∀ x ∈ parent, x.rule? = some .identifier)
    (hb : b.rule? = some .block) :
    FuncDecl.ofTree t = (do
      let returnType ← Ty.ofFuncType ty
      let params ← Param.listOf ps
      let body ← Stmt.ofBlock b
      return ⟨n.string, returnType, params, parent.map Tree.string, body⟩) := by
  obtain ⟨c, cs, hc, rfl, h1⟩ := childList_cons h
  obtain ⟨d, ds, rfl, rfl, h2⟩ := cons_of_map_tree h1
  have hhead : ∃ x xs, parent.toList ++ [b] = x :: xs ∧ x.rule? ≠ some .paramList := by
    cases parent with
    | none => exact ⟨b, [], rfl, by rw [hb]; decide⟩
    | some x => exact ⟨x, [b], rfl, by rw [hp x rfl]; decide⟩
  obtain ⟨x, xs, hx, hxr⟩ := hhead
  obtain ⟨cp, es, h3, rfl, hes⟩ := Visit.optional_of_map (hx ▸ h2) hps hxr
  obtain ⟨co, fs, h4, rfl, hfs⟩ :=
    Visit.optional_of_map (hes.trans hx.symm) hp (by rw [hb]; decide)
  obtain ⟨e, gs, rfl, rfl, hgs⟩ := cons_of_map_tree hfs
  rw [List.map_eq_nil_iff.mp hgs] at h4
  simp only [FuncDecl.ofTree, visitAll, visit, hc, Visit.bind_run, Visit.expect_cons (c.rule_eq hn),
    Visit.ok_bind, Visit.expect_cons (d.rule_eq hty), Visit.lift_run]
  cases Ty.ofFuncType d.tree with
  | error f => rfl
  | ok returnType =>
    simp only [Visit.ok_bind, h3]
    cases cp with
    | none =>
      simp only [Option.map_none, Param.listOf, Visit.ok_bind]
      cases hbody : Stmt.ofBlock e.tree <;>
        simp [hbody, h4, e.rule_eq hb, Option.map_map, Function.comp_def]
    | some p =>
      simp only [Param.listOf, Option.map_some]
      cases Param.listOfTree p.tree with
      | error f => rfl
      | ok params =>
        simp only [Visit.ok_bind]
        cases hbody : Stmt.ofBlock e.tree <;>
          simp [hbody, h4, e.rule_eq hb, Option.map_map, Function.comp_def]

/-- The declarations of a node are those of its only child. -/
theorem Decl.ofTree_eq {d : Tree} {r : Rule} :
    t.children = [d] → d.rule? = some r → r ∈ [.funcDecl, .varDecl] →
      Decl.ofTree t = match r with
      | .funcDecl => (fun f => [.func f]) <$> FuncDecl.ofTree d
      | .varDecl => (fun vs => vs.map .var) <$> VarDecl.ofGroup d
      | r => .error (.shape t (.unexpected .declaration r)) := by
  intro h hd hr
  obtain ⟨c, hc, rfl⟩ := childList_one h
  simp only [Decl.ofTree, visitAll, visit, hc, Visit.bind_run, Visit.next_cons, Visit.ok_bind,
    c.rule_eq hd]
  simp only [List.mem_cons, List.not_mem_nil, or_false] at hr
  rcases hr with rfl | rfl
  · cases FuncDecl.ofTree c.tree <;> rfl
  · cases VarDecl.ofGroup c.tree <;> rfl

theorem Program.ofTree_eq {ds : List Tree} {e : Tree} (h : t.children = ds ++ [e])
    (hds : ∀ d ∈ ds, d.rule? = some .declaration) (he : e.rule? = some .eoi) :
    Program.ofTree t = (fun ps => ⟨ps.flatten⟩) <$> ds.mapM Decl.ofTree := by
  have hlist := childList_map t
  rw [h] at hlist
  obtain ⟨cs, es, hcs, rfl, hes⟩ := List.map_eq_append_iff.mp hlist
  obtain ⟨c, es', rfl, rfl, hnil⟩ := cons_of_map_tree hes
  rw [List.map_eq_nil_iff.mp hnil] at hcs
  have hall : ∀ d ∈ cs, d.rule = .declaration := fun d hd =>
    d.rule_eq (hds d.tree (List.mem_map_of_mem hd))
  have hrest : ∀ d ∈ [c], d.rule ≠ .declaration := by
    intro d hd
    rw [List.mem_singleton.mp hd, c.rule_eq he]
    decide
  simp only [Program.ofTree, visitAll, visit, hcs, Visit.bind_run, Visit.many_append hall hrest,
    Visit.ok_bind, Visit.mapM_run]
  cases (cs.map Child.tree).mapM Decl.ofTree with
  | error f => rfl
  | ok ps =>
    simp only [Visit.ok_bind, Visit.expect_cons (c.rule_eq he), Visit.pure_run,
      Visit.finish_nil, Visit.map_ok, Visit.fmap_ok]

end Mt22
