import Mt22.Proofs.Program.OfDecl
import Mt22.Proofs.Program.MadeExpr

/-!
# What statements were made of

The types, variable groups and assignments that were made of nodes, and `Stmt.Made t ss`: the
statements `ss` were made of the node `t`.  A node of a statement or of one of its forms has one
statement, a block has the statements of its items in order, and a variable group has one for each
of its names.  As for expressions, the tree may be drawn by hand, and what holds of all statements
that are made is shown by induction on `Stmt.Made`.
-/

namespace Mt22

open Mt22.Tree Mt22.Visit

variable {t : Tree}

/-! ### Types -/

namespace Ty

theorem ofArrayType_ok {ty : Ty} (h : ofArrayType t = .ok ty) :
    ∃ d p ns q, t.children = [d, p] ∧ d.rule? = some .dimensions ∧ p.rule? = some .primType ∧
      (d.children.takeWhile (·.rule? = some .intLit)).mapM Literal.dimension = .ok ns ∧ ns ≠ [] ∧
      PrimTy.ofTree p = .ok q ∧ ty = .array ns q := by
  rw [ofArrayType, visitAll_ok] at h
  simp only [run_bind_ok, expect_ok, lift_ok, mapM_run_ok] at h
  obtain ⟨d, _, ⟨hcs, hd⟩, tokens, _, ⟨htokens, rfl⟩, ns, _, ⟨hns, rfl⟩, h⟩ := h
  cases ns with
  | nil => cases h
  | cons n ns =>
    simp only [List.isEmpty_cons, Bool.false_eq_true, if_false, run_bind_ok, expect_ok, lift_ok,
      run_pure_ok] at h
    obtain ⟨p, _, ⟨rfl, hp⟩, q, _, ⟨hq, rfl⟩, rfl, rfl⟩ := h
    rw [visit_many_ok htokens] at hns
    exact ⟨d.tree, p.tree, n :: ns, q, children_of_childList hcs, by rw [d.rule?_eq, hd],
      by rw [p.rule?_eq, hp], hns, by simp, hq, rfl⟩

theorem ofVarType_ok {ty : Ty} (h : ofVarType t = .ok ty) :
    ∃ f rest, t.children = f :: rest ∧
      ((∃ p, f.rule? = some .primType ∧ PrimTy.ofTree f = .ok p ∧ ty = .prim p) ∨
        (f.rule? = some .kwAuto ∧ ty = .auto) ∨
        f.rule? = some .arrayType ∧ ofArrayType f = .ok ty) := by
  rw [ofVarType, visit_ok] at h
  obtain ⟨ds, h⟩ := h
  obtain ⟨c, cs, v, hcs, hv, h⟩ := next_bind_ok h
  have hrule := c.rule?_eq
  refine ⟨c.tree, _, children_of_childList hcs, ?_⟩
  split at hv
  · next hr =>
    subst hv
    simp only [run_bind_ok, lift_ok, run_pure_ok] at h
    obtain ⟨p, _, ⟨hp, -⟩, rfl, -⟩ := h
    exact .inl ⟨p, by rw [hrule, hr], hp, rfl⟩
  · next hr =>
    subst hv
    obtain ⟨rfl, -⟩ := run_pure_ok.mp h
    exact .inr (.inl ⟨by rw [hrule, hr], rfl⟩)
  · next hr =>
    subst hv
    obtain ⟨hty, -⟩ := lift_ok.mp h
    exact .inr (.inr ⟨by rw [hrule, hr], hty⟩)
  · subst hv
    cases h

theorem ofFuncType_ok {ty : Ty} (h : ofFuncType t = .ok ty) :
    (∃ v rest, t.children = v :: rest ∧ v.rule? = some .kwVoid ∧ ty = .void) ∨
      ∃ v, t.children = [v] ∧ v.rule? = some .varType ∧ ofVarType v = .ok ty := by
  rw [ofFuncType, visit_ok] at h
  simp only [run_bind_ok] at h
  obtain ⟨ds, b, es, hflag, h⟩ := h
  rcases flag_ok hflag with ⟨c, rfl, hcs, hc⟩ | ⟨rfl, hcs⟩
  · obtain ⟨rfl, -⟩ := run_pure_ok.mp h
    exact .inl ⟨c.tree, _, children_of_childList hcs, by rw [c.rule?_eq, hc], rfl⟩
  · simp only [Bool.false_eq_true, if_false, run_bind_ok, expect_ok, lift_ok, finish_ok,
      run_pure_ok] at h
    obtain ⟨v, _, ⟨rfl, hv⟩, ty', _, ⟨hty, rfl⟩, _, _, ⟨rfl, rfl⟩, rfl, -⟩ := h
    exact .inr ⟨v.tree, children_of_childList hcs, by rw [v.rule?_eq, hv], hty⟩

end Ty

/-! ### Variable groups and assignments -/

namespace VarDecl

theorem names_ok {ns : List String} (h : names t = .ok ns) :
    ns = (t.children.takeWhile (·.rule? = some .identifier)).map Tree.string := by
  rw [names, visit_ok] at h
  simp only [run_bind_ok, run_pure_ok] at h
  obtain ⟨_, cs, _, hmany, rfl, rfl⟩ := h
  cases hmany
  rw [← childList_map, ← map_takeWhile_rule, List.map_map]
  rfl

theorem values_ok {es : List Expr} (h : values t = .ok es) :
    (∀ c ∈ t.children, c.rule? = some .expression) ∧ t.children.mapM Expr.ofTree = .ok es :=
  visitAll_many_ok h

/-- Names and a type, and as many values as names or none at all. -/
theorem ofGroup_ok {vs : List VarDecl} (h : ofGroup t = .ok vs) :
    ∃ (n ty : Tree) (i : Option Tree) (ns : List String) (τ : Ty),
      t.children = n :: ty :: i.toList ∧ n.rule? = some .nameList ∧ ty.rule? = some .varType ∧
      (∀ l ∈ i, l.rule? = some .initializers) ∧ names n = .ok ns ∧ Ty.ofVarType ty = .ok τ ∧
      (i = none ∧ vs = ns.map (fun x => ⟨x, τ, none⟩) ∨
        ∃ l es, i = some l ∧ values l = .ok es ∧ es.length = ns.length ∧
          vs = List.zipWith (fun x e => ⟨x, τ, some e⟩) ns es) := by
  rw [ofGroup, visitAll_ok] at h
  simp only [run_bind_ok, expect_ok, lift_ok] at h
  obtain ⟨n, _, ⟨hcs, hn⟩, ns, _, ⟨hns, rfl⟩, ty, _, ⟨rfl, hty⟩, τ, _, ⟨hτ, rfl⟩, o, _, ho, h⟩ := h
  have hn : n.tree.rule? = some .nameList := by rw [n.rule?_eq, hn]
  have hty : ty.tree.rule? = some .varType := by rw [ty.rule?_eq, hty]
  rcases optional_ok ho with ⟨l, rfl, rfl, hl⟩ | ⟨rfl, rfl⟩
  · simp only [run_bind_ok, lift_ok] at h
    obtain ⟨es, _, ⟨hes, rfl⟩, h⟩ := h
    by_cases hlen : es.length = ns.length
    · rw [if_neg (by simpa using hlen)] at h
      obtain ⟨rfl, rfl⟩ := run_pure_ok.mp h
      exact ⟨n.tree, ty.tree, some l.tree, ns, τ, children_of_childList hcs, hn, hty,
        by simp [l.rule?_eq, hl], hns, hτ, .inr ⟨l.tree, es, rfl, hes, hlen, rfl⟩⟩
    · rw [if_pos (by simpa using hlen)] at h
      cases h
  · obtain ⟨rfl, rfl⟩ := run_pure_ok.mp h
    exact ⟨n.tree, ty.tree, none, ns, τ, children_of_childList hcs, hn, hty, by simp, hns, hτ,
      .inl ⟨rfl, rfl⟩⟩

end VarDecl

theorem Target.ofTree_ok {x : Target} (h : ofTree t = .ok x) :
    ∃ p, t.children = [p] ∧
      (p.rule? = some .identifier ∧ x = .id p.string ∨
        ∃ n es, p.rule? = some .arrayCell ∧ Expr.ofCell p = .ok (n, es) ∧ x = .cell n es) := by
  rw [ofTree, visitAll_ok] at h
  obtain ⟨c, cs, v, hcs, hv, h⟩ := next_bind_ok h
  have hrule := c.rule?_eq
  suffices cs = [] ∧ _ from ⟨c.tree, by rw [children_of_childList hcs, this.1]; rfl, this.2⟩
  split at hv
  · next hr =>
    subst hv
    obtain ⟨rfl, rfl⟩ := run_pure_ok.mp h
    exact ⟨rfl, .inl ⟨by rw [hrule, hr], rfl⟩⟩
  · next hr =>
    subst hv
    simp only [run_bind_ok, lift_ok, run_pure_ok] at h
    obtain ⟨⟨n, es⟩, _, ⟨hn, rfl⟩, rfl, rfl⟩ := h
    exact ⟨rfl, .inr ⟨n, es, by rw [hrule, hr], hn, rfl⟩⟩
  · subst hv
    cases h

theorem Assign.ofTree_ok {a : Assign} (h : ofTree t = .ok a) :
    ∃ l e, t.children = [l, e] ∧ l.rule? = some .lhs ∧ e.rule? = some .expression ∧
      Target.ofTree l = .ok a.target ∧ Expr.ofTree e = .ok a.value := by
  rw [ofTree, visitAll_ok] at h
  simp only [run_bind_ok, expect_ok, lift_ok, run_pure_ok] at h
  obtain ⟨l, _, ⟨hcs, hl⟩, x, _, ⟨hx, rfl⟩, e, _, ⟨rfl, he⟩, y, _, ⟨hy, rfl⟩, rfl, rfl⟩ := h
  exact ⟨l.tree, e.tree, children_of_childList hcs, by rw [l.rule?_eq, hl], by rw [e.rule?_eq, he],
    hx, hy⟩

/-! ### Statements -/

namespace Stmt

theorem ofReturn_ok {s : Stmt} (h : ofReturn t = .ok s) :
    (t.children = [] ∧ s = .ret none) ∨
      ∃ e x, t.children = [e] ∧ e.rule? = some .expression ∧ Expr.ofTree e = .ok x ∧
        s = .ret (some x) := by
  rw [ofReturn, visitAll_ok] at h
  simp only [run_bind_ok] at h
  obtain ⟨o, cs, ho, h⟩ := h
  rcases optional_ok ho with ⟨c, rfl, hcs, hc⟩ | ⟨rfl, hcs⟩
  · simp only [run_bind_ok, lift_ok, run_pure_ok] at h
    obtain ⟨x, _, ⟨hx, rfl⟩, rfl, rfl⟩ := h
    exact .inr ⟨c.tree, x, children_of_childList hcs, by rw [c.rule?_eq, hc], hx, rfl⟩
  · obtain ⟨rfl, rfl⟩ := run_pure_ok.mp h
    exact .inl ⟨children_of_childList hcs, rfl⟩

theorem ofCall_ok {s : Stmt} (h : ofCall t = .ok s) :
    ∃ c n es, t.children = [c] ∧ c.rule? = some .funcCall ∧ Expr.ofCall c = .ok (n, es) ∧
      s = .call n es := by
  rw [ofCall, visitAll_ok] at h
  simp only [run_bind_ok, expect_ok, lift_ok, run_pure_ok] at h
  obtain ⟨c, _, ⟨hcs, hc⟩, ⟨n, es⟩, _, ⟨hn, rfl⟩, rfl, rfl⟩ := h
  exact ⟨c.tree, n, es, children_of_childList hcs, by rw [c.rule?_eq, hc], hn, rfl⟩

theorem ofAssign_ok {s : Stmt} (h : ofAssign t = .ok s) :
    ∃ c a, t.children = [c] ∧ c.rule? = some .assign ∧ Assign.ofTree c = .ok a ∧
      s = .assign a := by
  rw [ofAssign, visitAll_ok] at h
  simp only [run_bind_ok, expect_ok, lift_ok, run_pure_ok] at h
  obtain ⟨c, _, ⟨hcs, hc⟩, a, _, ⟨ha, rfl⟩, rfl, rfl⟩ := h
  exact ⟨c.tree, a, children_of_childList hcs, by rw [c.rule?_eq, hc], ha, rfl⟩

theorem ofIf_ok {s : Stmt} (h : ofIf t = .ok s) :
    ∃ (e a : Tree) (b : Option Tree) (x : Expr) (y : Stmt), t.children = e :: a :: b.toList ∧
      e.rule? = some .expression ∧ a.rule? = some .statement ∧
      (∀ d ∈ b, d.rule? = some .statement) ∧ Expr.ofTree e = .ok x ∧ ofTree a = .ok y ∧
      (b = none ∧ s = .ifThen x y ∨ ∃ d z, b = some d ∧ ofTree d = .ok z ∧ s = .ifElse x y z) := by
  rw [ofIf, visitAll_ok] at h
  simp only [run_bind_ok, expect_ok, lift_ok] at h
  obtain ⟨e, _, ⟨hcs, he⟩, x, _, ⟨hx, rfl⟩, a, _, ⟨rfl, ha⟩, y, _, ⟨hy, rfl⟩, o, _, ho, h⟩ := h
  have he : e.tree.rule? = some .expression := by rw [e.rule?_eq, he]
  have ha : a.tree.rule? = some .statement := by rw [a.rule?_eq, ha]
  rcases optional_ok ho with ⟨b, rfl, rfl, hb⟩ | ⟨rfl, rfl⟩
  · simp only [run_bind_ok, lift_ok, run_pure_ok] at h
    obtain ⟨z, _, ⟨hz, rfl⟩, rfl, rfl⟩ := h
    exact ⟨e.tree, a.tree, some b.tree, x, y, children_of_childList hcs, he, ha,
      by simp [b.rule?_eq, hb], hx, hy, .inr ⟨b.tree, z, rfl, hz, rfl⟩⟩
  · obtain ⟨rfl, rfl⟩ := run_pure_ok.mp h
    exact ⟨e.tree, a.tree, none, x, y, children_of_childList hcs, he, ha, by simp, hx, hy,
      .inl ⟨rfl, rfl⟩⟩

theorem ofFor_ok {s : Stmt} (h : ofFor t = .ok s) :
    ∃ a c u b i x y z, t.children = [a, c, u, b] ∧ a.rule? = some .assign ∧
      c.rule? = some .expression ∧ u.rule? = some .expression ∧ b.rule? = some .statement ∧
      Assign.ofTree a = .ok i ∧ Expr.ofTree c = .ok x ∧ Expr.ofTree u = .ok y ∧
      ofTree b = .ok z ∧ s = .forLoop i x y z := by
  rw [ofFor, visitAll_ok] at h
  simp only [run_bind_ok, expect_ok, lift_ok, run_pure_ok] at h
  obtain ⟨a, _, ⟨hcs, ha⟩, i, _, ⟨hi, rfl⟩, c, _, ⟨rfl, hc⟩, x, _, ⟨hx, rfl⟩, u, _, ⟨rfl, hu⟩, y, _,
    ⟨hy, rfl⟩, b, _, ⟨rfl, hb⟩, z, _, ⟨hz, rfl⟩, rfl, rfl⟩ := h
  exact ⟨a.tree, c.tree, u.tree, b.tree, i, x, y, z, children_of_childList hcs,
    by rw [a.rule?_eq, ha], by rw [c.rule?_eq, hc], by rw [u.rule?_eq, hu], by rw [b.rule?_eq, hb],
    hi, hx, hy, hz, rfl⟩

theorem ofWhile_ok {s : Stmt} (h : ofWhile t = .ok s) :
    ∃ c b x z, t.children = [c, b] ∧ c.rule? = some .expression ∧ b.rule? = some .statement ∧
      Expr.ofTree c = .ok x ∧ ofTree b = .ok z ∧ s = .whileLoop x z := by
  rw [ofWhile, visitAll_ok] at h
  simp only [run_bind_ok, expect_ok, lift_ok, run_pure_ok] at h
  obtain ⟨c, _, ⟨hcs, hc⟩, x, _, ⟨hx, rfl⟩, b, _, ⟨rfl, hb⟩, z, _, ⟨hz, rfl⟩, rfl, rfl⟩ := h
  exact ⟨c.tree, b.tree, x, z, children_of_childList hcs, by rw [c.rule?_eq, hc],
    by rw [b.rule?_eq, hb], hx, hz, rfl⟩

theorem ofDo_ok {s : Stmt} (h : ofDo t = .ok s) :
    ∃ b c ss x, t.children = [b, c] ∧ b.rule? = some .block ∧ c.rule? = some .expression ∧
      ofBlock b = .ok ss ∧ Expr.ofTree c = .ok x ∧ s = .doLoop ss x := by
  rw [ofDo, visitAll_ok] at h
  simp only [run_bind_ok, expect_ok, lift_ok, run_pure_ok] at h
  obtain ⟨b, _, ⟨hcs, hb⟩, ss, _, ⟨hss, rfl⟩, c, _, ⟨rfl, hc⟩, x, _, ⟨hx, rfl⟩, rfl, rfl⟩ := h
  exact ⟨b.tree, c.tree, ss, x, children_of_childList hcs, by rw [b.rule?_eq, hb],
    by rw [c.rule?_eq, hc], hss, hx, rfl⟩

/-- Every child is an item, of which statements are made. -/
theorem ofBlock_ok {ss : List Stmt} (h : ofBlock t = .ok ss) :
    (∀ c ∈ t.children, c.rule? = some .varDecl ∨ c.rule? = some .statement) ∧
      ∃ items, t.children.mapM ofItem = .ok items ∧ ss = items.flatten := by
  have hrules : ∀ c ∈ t.children, c.rule? = some .varDecl ∨ c.rule? = some .statement := by
    intro d hd
    rw [← childList_map] at hd
    obtain ⟨c, hc, rfl⟩ := List.mem_map.mp hd
    rw [ofBlock, bind_ok] at h
    obtain ⟨items, hitems, -⟩ := h
    obtain ⟨g, -, hg⟩ := exists_map_of_mapM hitems
    have hcg := hg c hc
    rw [c.rule?_eq]
    split at hcg
    · next hr => exact .inl (congrArg some hr)
    · next hr => exact .inr (congrArg some hr)
    · cases hcg
  rw [ofBlock_eq hrules, fmap_eq_ok] at h
  obtain ⟨items, hitems, rfl⟩ := h
  exact ⟨hrules, items, hitems, rfl⟩

/-- A statement has one child, which is a form of statement. -/
theorem form_of_ofTree_ok {s : Stmt} (h : ofTree t = .ok s) :
    ∃ f r, t.children = [f] ∧ f.rule? = some r ∧ r ∈ formRules := by
  rw [ofTree, visitAll_ok] at h
  obtain ⟨c, cs, v, hcs, hv, h⟩ := next_bind_ok h
  suffices cs = [] ∧ c.rule ∈ formRules from
    ⟨c.tree, c.rule, by rw [children_of_childList hcs, this.1]; rfl, c.rule?_eq, this.2⟩
  split at hv
  case h_11 =>
    subst hv
    cases h
  case h_5 | h_6 =>
    next hr =>
    subst hv
    exact ⟨(run_pure_ok.mp h).2.symm, by rw [hr]; decide⟩
  case h_8 =>
    next hr =>
    subst hv
    simp only [run_bind_ok, lift_ok, run_pure_ok] at h
    obtain ⟨_, _, ⟨-, rfl⟩, -, rfl⟩ := h
    exact ⟨rfl, by rw [hr]; decide⟩
  all_goals
    next hr =>
    subst hv
    exact ⟨(lift_ok.mp h).2.symm, by rw [hr]; decide⟩

/-- The statements `ss` were made of the node `t`. -/
inductive Made : Tree → List Stmt → Prop
  | statement {t f : Tree} {r : Rule} {s : Stmt} (hr : t.rule? = some .statement)
      (hc : t.children = [f]) (hf : f.rule? = some r) (hmem : r ∈ formRules) (hne : r ≠ .block)
      (hs : Made f [s]) : Made t [s]
  | nested {t b : Tree} {ss : List Stmt} (hr : t.rule? = some .statement) (hc : t.children = [b])
      (hb : b.rule? = some .block) (hss : Made b ss) : Made t [.block ss]
  | block {t : Tree} {f : Tree → List Stmt} (hr : t.rule? = some .block)
      (hc : ∀ c ∈ t.children, c.rule? = some .varDecl ∨ c.rule? = some .statement)
      (hss : ∀ c ∈ t.children, Made c (f c)) : Made t (t.children.flatMap f)
  | group {t : Tree} {vs : List VarDecl} (hr : t.rule? = some .varDecl)
      (hvs : VarDecl.ofGroup t = .ok vs) : Made t (vs.map .declare)
  | ifThen {t e a : Tree} {x : Expr} {y : Stmt} (hr : t.rule? = some .ifStmt)
      (hc : t.children = [e, a]) (he : e.rule? = some .expression) (ha : a.rule? = some .statement)
      (hx : Expr.ofTree e = .ok x) (hy : Made a [y]) : Made t [.ifThen x y]
  | ifElse {t e a b : Tree} {x : Expr} {y z : Stmt} (hr : t.rule? = some .ifStmt)
      (hc : t.children = [e, a, b]) (he : e.rule? = some .expression)
      (ha : a.rule? = some .statement) (hb : b.rule? = some .statement)
      (hx : Expr.ofTree e = .ok x) (hy : Made a [y]) (hz : Made b [z]) : Made t [.ifElse x y z]
  | forLoop {t a c u b : Tree} {i : Assign} {x y : Expr} {z : Stmt} (hr : t.rule? = some .forStmt)
      (hc : t.children = [a, c, u, b]) (ha : a.rule? = some .assign)
      (hcond : c.rule? = some .expression) (hu : u.rule? = some .expression)
      (hb : b.rule? = some .statement) (hi : Assign.ofTree a = .ok i) (hx : Expr.ofTree c = .ok x)
      (hy : Expr.ofTree u = .ok y) (hz : Made b [z]) : Made t [.forLoop i x y z]
  | whileLoop {t c b : Tree} {x : Expr} {z : Stmt} (hr : t.rule? = some .whileStmt)
      (hc : t.children = [c, b]) (hcond : c.rule? = some .expression)
      (hb : b.rule? = some .statement) (hx : Expr.ofTree c = .ok x) (hz : Made b [z]) :
      Made t [.whileLoop x z]
  | doLoop {t b c : Tree} {ss : List Stmt} {x : Expr} (hr : t.rule? = some .doWhileStmt)
      (hc : t.children = [b, c]) (hb : b.rule? = some .block) (hcond : c.rule? = some .expression)
      (hss : Made b ss) (hx : Expr.ofTree c = .ok x) : Made t [.doLoop ss x]
  | breakLoop {t : Tree} (hr : t.rule? = some .breakStmt) : Made t [.breakLoop]
  | continueLoop {t : Tree} (hr : t.rule? = some .continueStmt) : Made t [.continueLoop]
  | ret {t : Tree} (hr : t.rule? = some .returnStmt) (hc : t.children = []) : Made t [.ret none]
  | retValue {t e : Tree} {x : Expr} (hr : t.rule? = some .returnStmt) (hc : t.children = [e])
      (he : e.rule? = some .expression) (hx : Expr.ofTree e = .ok x) : Made t [.ret (some x)]
  | call {t c : Tree} {n : String} {es : List Expr} (hr : t.rule? = some .callStmt)
      (hc : t.children = [c]) (hcall : c.rule? = some .funcCall)
      (hes : Expr.ofCall c = .ok (n, es)) : Made t [.call n es]
  | assign {t a : Tree} {x : Assign} (hr : t.rule? = some .assignStmt) (hc : t.children = [a])
      (ha : a.rule? = some .assign) (hx : Assign.ofTree a = .ok x) : Made t [.assign x]

/-- What is made of `t`, as a statement or as a block, was made of it. -/
structure Recovered (t : Tree) : Prop where
  statement : ∀ {s : Stmt}, t.rule? = some .statement → ofTree t = .ok s → Made t [s]
  block : ∀ {ss : List Stmt}, t.rule? = some .block → ofBlock t = .ok ss → Made t ss

section Step

variable {f : Tree} {s : Stmt} (ih : ∀ u ∈ t.children, Recovered u)
include ih

theorem Recovered.if_step (hr : t.rule? = some .ifStmt) (h : ofIf t = .ok s) : Made t [s] := by
  obtain ⟨e, a, b, x, y, hc, he, ha, hb, hx, hy, hcase⟩ := ofIf_ok h
  have hy := (ih a (by simp [hc])).statement ha hy
  rcases hcase with ⟨rfl, rfl⟩ | ⟨d, z, rfl, hz, rfl⟩
  · exact .ifThen hr hc he ha hx hy
  · have hd := hb d rfl
    exact .ifElse hr hc he ha hd hx hy ((ih d (by simp [hc])).statement hd hz)

theorem Recovered.for_step (hr : t.rule? = some .forStmt) (h : ofFor t = .ok s) : Made t [s] := by
  obtain ⟨a, c, u, b, i, x, y, z, hc, ha, hcond, hu, hb, hi, hx, hy, hz, rfl⟩ := ofFor_ok h
  exact .forLoop hr hc ha hcond hu hb hi hx hy ((ih b (by simp [hc])).statement hb hz)

theorem Recovered.while_step (hr : t.rule? = some .whileStmt) (h : ofWhile t = .ok s) :
    Made t [s] := by
  obtain ⟨c, b, x, z, hc, hcond, hb, hx, hz, rfl⟩ := ofWhile_ok h
  exact .whileLoop hr hc hcond hb hx ((ih b (by simp [hc])).statement hb hz)

theorem Recovered.do_step (hr : t.rule? = some .doWhileStmt) (h : ofDo t = .ok s) :
    Made t [s] := by
  obtain ⟨b, c, ss, x, hc, hb, hcond, hss, hx, rfl⟩ := ofDo_ok h
  exact .doLoop hr hc hb hcond ((ih b (by simp [hc])).block hb hss) hx

theorem Recovered.block_step {ss : List Stmt} (hr : t.rule? = some .block)
    (h : ofBlock t = .ok ss) : Made t ss := by
  obtain ⟨hc, items, hitems, rfl⟩ := ofBlock_ok h
  obtain ⟨g, rfl, hg⟩ := exists_map_of_mapM hitems
  rw [← List.flatMap_def]
  refine .block hr hc fun c hmem => ?_
  have hitem := hg c hmem
  rw [ofItem] at hitem
  split at hitem
  · next hv =>
    obtain ⟨vs, hvs, hgc⟩ := fmap_eq_ok.mp hitem
    rw [← hgc]
    exact .group hv hvs
  · next hv =>
    obtain ⟨s, hs, hgc⟩ := fmap_eq_ok.mp hitem
    rw [← hgc]
    exact (ih c hmem).statement ((hc c hmem).resolve_left hv) hs

/-- A form of statement gives the statement that it is in. -/
theorem Recovered.form_step {u : Tree} {r : Rule} (hu : u.children = [t]) (hr : t.rule? = some r)
    (hmem : r ∈ formRules) (hne : r ≠ .block) (h : ofTree u = .ok s) : Made t [s] := by
  rw [ofTree_eq hu hr hmem] at h
  simp only [formRules, List.mem_cons, List.not_mem_nil, or_false] at hmem
  rcases hmem with rfl | rfl | rfl | rfl | rfl | rfl | rfl | rfl | rfl | rfl
  · exact Recovered.if_step ih hr h
  · exact Recovered.for_step ih hr h
  · exact Recovered.while_step ih hr h
  · exact Recovered.do_step ih hr h
  · cases h
    exact .breakLoop hr
  · cases h
    exact .continueLoop hr
  · rcases ofReturn_ok h with ⟨hc, rfl⟩ | ⟨e, x, hc, he, hx, rfl⟩
    · exact .ret hr hc
    · exact .retValue hr hc he hx
  · exact absurd rfl hne
  · obtain ⟨c, n, es, hc, hcall, hes, rfl⟩ := ofCall_ok h
    exact .call hr hc hcall hes
  · obtain ⟨c, a, hc, ha, hx, rfl⟩ := ofAssign_ok h
    exact .assign hr hc ha hx

end Step

theorem Recovered.step (ih : ∀ u : Tree, sizeOf u < sizeOf t → Recovered u) : Recovered t where
  statement := by
    intro s hr h
    obtain ⟨f, r, hc, hf, hmem⟩ := form_of_ofTree_ok h
    have hlt : sizeOf f < sizeOf t := sizeOf_lt_of_mem_children (by simp [hc])
    by_cases hb : r = .block
    · -- a block is not a statement itself, but the body of one
      subst hb
      rw [ofTree_eq hc hf hmem] at h
      obtain ⟨ss, hss, rfl⟩ := fmap_eq_ok.mp h
      exact .nested hr hc hf ((ih f hlt).block hf hss)
    · refine .statement hr hc hf hmem hb (Recovered.form_step (fun u hu => ?_) hc hf hmem hb h)
      exact ih u (Nat.lt_trans (sizeOf_lt_of_mem_children hu) hlt)
  block := by
    intro ss hr h
    exact Recovered.block_step (fun u hu => ih u (sizeOf_lt_of_mem_children hu)) hr h

theorem recovered (t : Tree) : Recovered t :=
  Recovered.step fun u _ => recovered u
termination_by sizeOf t

end Stmt

end Mt22
