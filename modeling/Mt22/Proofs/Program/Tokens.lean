import Mt22.Proofs.Program.Blame
import Mt22.Proofs.Program.MadeDecl
import Mt22.Proofs.Program.Subterms

/-!
# The tokens of a program

Every name and every literal of a program was made of a token in its tree: `Expr.From root` says so
of an expression, and `Program.From root` of all names and expressions of a program.  Nothing is
assumed of the tree, so that this says where a name comes from and not yet what it looks like.
-/

namespace Mt22

open Mt22.Tree Mt22.Visit

variable {root t : Tree}

theorem Tree.Within.of_child {c : Tree} (h : t.Within root) (hc : c ∈ t.children) : c.Within root :=
  .trans (.child hc (.self c)) h

/-- The name is the text of an identifier in the tree. -/
def Tree.Names (root : Tree) (n : String) : Prop :=
  ∃ i : Tree, i.Within root ∧ i.rule? = some .identifier ∧ n = i.string

theorem Tree.Within.names {i : Tree} (h : t.Within root) (hi : i ∈ t.children)
    (hr : i.rule? = some .identifier) : root.Names i.string := ⟨i, h.of_child hi, hr, rfl⟩

/-! ### Expressions -/

namespace Expr

/-- The names that stand in an expression, apart from the expressions in it. -/
def names : Expr → List String
  | id name | cell name _ | call name _ => [name]
  | int _ | float _ | str _ | bool _ | array _ | binary .. | unary .. => []

/-- The name or the literal of an expression was made of a token in the tree. -/
def From (root : Tree) : Expr → Prop
  | id name | cell name _ | call name _ => root.Names name
  | int value =>
    ∃ i : Tree, i.Within root ∧ i.rule? = some .intLit ∧ Literal.integer i = .ok value
  | float value =>
    ∃ i : Tree, i.Within root ∧ i.rule? = some .floatLit ∧ Literal.float i = .ok value
  | str text => ∃ i : Tree, i.Within root ∧ i.rule? = some .strBody ∧ text = i.string
  | bool _ | array _ | binary .. | unary .. => True

theorem From.names {e : Expr} (h : e.From root) : ∀ n ∈ e.names, root.Names n := by
  cases e with
  | id | cell | call => exact List.forall_mem_singleton.mpr h
  | int | float | str | bool | array | binary | unary => exact nofun

theorem ofLiteral_from {e : Expr} (hw : t.Within root) (h : ofLiteral t = .ok e) :
    e.Every (From root) := by
  obtain ⟨v, rest, hc, hv⟩ := ofLiteral_ok h
  have hwv : v.Within root := hw.of_child (by simp [hc])
  rcases hv with ⟨n, hr, hn, rfl⟩ | ⟨x, hr, hx, rfl⟩ | ⟨s, hr, hs, rfl⟩ | ⟨b, -, -, rfl⟩
  · exact List.forall_mem_singleton.mpr ⟨v, hwv, hr, hn⟩
  · exact List.forall_mem_singleton.mpr ⟨v, hwv, hr, hx⟩
  · obtain ⟨b, rest', hcv, hb, rfl⟩ := Literal.string_ok hs
    exact List.forall_mem_singleton.mpr ⟨b, hwv.of_child (by simp [hcv]), hb, rfl⟩
  · exact List.forall_mem_singleton.mpr trivial

/-- **The leaves of an expression were made of tokens** of the tree that holds its node. -/
theorem Made.from {es : List Expr} (h : Made t es) (hw : t.Within root) :
    ∀ e ∈ es, e.Every (From root) := by
  induction h with
  | literal hr he => exact List.forall_mem_singleton.mpr (ofLiteral_from hw he)
  | name hr => exact List.forall_mem_singleton.mpr (every_id.mpr ⟨_, hw, hr, rfl⟩)
  | chain k hk hr hc hlen hl hps ihl ihps =>
    refine List.forall_mem_singleton.mpr (every_foldl (fun _ _ _ => trivial) ?_ ?_)
    · exact List.forall_mem_singleton.mp (ihl (hw.of_child (by simp [hc.children])))
    · intro p hp
      obtain ⟨d, hd, hpd⟩ := List.mem_map.mp (List.of_mem_zip hp).2
      obtain ⟨q, hq, rfl⟩ := List.mem_map.mp hd
      rw [← hpd]
      refine List.forall_mem_singleton.mp (ihps q.2 hd (hw.of_child ?_))
      rw [hc.children]
      exact List.mem_cons_of_mem _ (List.mem_flatMap.mpr ⟨q, hq, by simp⟩)
  | operand s hr hc hd he ih => exact ih (hw.of_child (by simp [hc]))
  | sign s hr hc ho hd hop he ih =>
    have he := List.forall_mem_singleton.mp (ih (hw.of_child (by simp [hc])))
    exact List.forall_mem_singleton.mpr (every_unary.mpr ⟨trivial, he⟩)
  | primary hr hc hp hmem he ih => exact ih (hw.of_child (by simp [hc]))
  | arguments hr hc hes ih =>
    intro e he
    obtain ⟨c, hmem, rfl⟩ := List.mem_map.mp he
    exact List.forall_mem_singleton.mp (ih c hmem (hw.of_child hmem))
  | @array t a es hr hc ha hes hnone ih =>
    refine List.forall_mem_singleton.mpr (every_array.mpr ⟨trivial, ?_⟩)
    cases a with
    | none => simp [hnone rfl]
    | some b => exact ih b rfl (hw.of_child (by simp [hc]))
  | cell hr hc hi ha hes hne ih =>
    refine List.forall_mem_singleton.mpr (every_cell.mpr ⟨hw.names (by simp [hc]) hi, ?_⟩)
    exact ih (hw.of_child (by simp [hc]))
  | @call t i a es hr hc hi ha hes hnone ih =>
    refine List.forall_mem_singleton.mpr (every_call.mpr ⟨hw.names (by simp [hc]) hi, ?_⟩)
    cases a with
    | none => simp [hnone rfl]
    | some b => exact ih b rfl (hw.of_child (by simp [hc]))

theorem ofTree_from {e : Expr} (hw : t.Within root) (hr : t.rule? = some .expression)
    (h : ofTree t = .ok e) : e.Every (From root) :=
  List.forall_mem_singleton.mp ((made_of_ofTree hr h).from hw)

end Expr

/-! ### Variables and assignments -/

/-- The name and the first value of a variable were made of tokens. -/
structure VarDecl.From (root : Tree) (v : VarDecl) : Prop where
  name : root.Names v.name
  init : ∀ e ∈ v.init.toList, e.Every (Expr.From root)

theorem VarDecl.ofGroup_from {vs : List VarDecl} (hw : t.Within root) (h : ofGroup t = .ok vs) :
    ∀ v ∈ vs, v.From root := by
  obtain ⟨n, ty, i, ns, τ, hc, hn, -, hi, hns, -, hvs⟩ := ofGroup_ok h
  have hnames : ∀ x ∈ ns, root.Names x := by
    intro x hx
    rw [names_ok hns] at hx
    obtain ⟨c, hmem, rfl⟩ := List.mem_map.mp hx
    exact (hw.of_child (by simp [hc])).names ((List.takeWhile_sublist _).subset hmem)
      (rule_of_mem_takeWhile hmem)
  intro v hv
  rcases hvs with ⟨-, rfl⟩ | ⟨l, es, rfl, hes, -, rfl⟩
  · obtain ⟨x, hx, rfl⟩ := List.mem_map.mp hv
    exact ⟨hnames x hx, nofun⟩
  · obtain ⟨hrules, hes⟩ := values_ok hes
    obtain ⟨g, rfl, hg⟩ := exists_map_of_mapM hes
    rw [List.zipWith_map_right, ← List.map_uncurry_zip_eq_zipWith] at hv
    obtain ⟨⟨x, c⟩, hxc, rfl⟩ := List.mem_map.mp hv
    obtain ⟨hx, hmem⟩ := List.of_mem_zip hxc
    have hwl : l.Within root := hw.of_child (by simp [hc])
    exact ⟨hnames x hx, List.forall_mem_singleton.mpr
      (Expr.ofTree_from (hwl.of_child hmem) (hrules c hmem) (hg c hmem))⟩

theorem Assign.ofTree_from {a : Assign} (hw : t.Within root) (h : ofTree t = .ok a) :
    a.target.toExpr.Every (Expr.From root) ∧ a.value.Every (Expr.From root) := by
  obtain ⟨l, e, hc, -, he, hl, hv⟩ := ofTree_ok h
  refine ⟨?_, Expr.ofTree_from (hw.of_child (by simp [hc])) he hv⟩
  have hwl : l.Within root := hw.of_child (by simp [hc])
  obtain ⟨p, hcl, ⟨hr, hp⟩ | ⟨n, es, hr, hp, hx⟩⟩ := Target.ofTree_ok hl
  · rw [hp]
    exact Expr.every_id.mpr (hwl.names (by simp [hcl]) hr)
  · rw [hx]
    exact List.forall_mem_singleton.mp
      (((Expr.recovered p).cell hr hp).from (hwl.of_child (by simp [hcl])))

/-! ### Statements -/

namespace Stmt

/-- The expressions and the variable of a statement, apart from the statements in it, were made of
tokens. -/
structure From (root : Tree) (s : Stmt) : Prop where
  operands : ∀ e ∈ s.operands, e.Every (Expr.From root)
  declared : ∀ v ∈ s.declared, v.From root

theorem Made.from {ss : List Stmt} (h : Made t ss) (hw : t.Within root) :
    ∀ s ∈ ss, s.Every (From root) := by
  induction h with
  | statement hr hc hf hmem hne hs ih => exact ih (hw.of_child (by simp [hc]))
  | nested hr hc hb hss ih =>
    refine List.forall_mem_singleton.mpr (every_block.mpr ⟨⟨nofun, nofun⟩, ?_⟩)
    exact ih (hw.of_child (by simp [hc]))
  | block hr hc hss ih =>
    exact List.forall_mem_flatMap.mpr fun c hmem => ih c hmem (hw.of_child hmem)
  | group hr hvs =>
    refine List.forall_mem_map.mpr fun v hv => (every_of_substmts rfl).mpr ?_
    have hfrom := VarDecl.ofGroup_from hw hvs v hv
    exact ⟨hfrom.init, List.forall_mem_singleton.mpr hfrom⟩
  | ifThen hr hc he ha hx hy ih =>
    have hx := Expr.ofTree_from (hw.of_child (by simp [hc])) he hx
    have hy := List.forall_mem_singleton.mp (ih (hw.of_child (by simp [hc])))
    exact List.forall_mem_singleton.mpr
      (every_ifThen.mpr ⟨⟨List.forall_mem_singleton.mpr hx, nofun⟩, hy⟩)
  | ifElse hr hc he ha hb hx hy hz ihy ihz =>
    have hx := Expr.ofTree_from (hw.of_child (by simp [hc])) he hx
    have hy := List.forall_mem_singleton.mp (ihy (hw.of_child (by simp [hc])))
    have hz := List.forall_mem_singleton.mp (ihz (hw.of_child (by simp [hc])))
    exact List.forall_mem_singleton.mpr
      (every_ifElse.mpr ⟨⟨List.forall_mem_singleton.mpr hx, nofun⟩, hy, hz⟩)
  | forLoop hr hc ha hcond hu hb hi hx hy hz ih =>
    obtain ⟨htarget, hvalue⟩ := Assign.ofTree_from (hw.of_child (by simp [hc])) hi
    have hx := Expr.ofTree_from (hw.of_child (by simp [hc])) hcond hx
    have hy := Expr.ofTree_from (hw.of_child (by simp [hc])) hu hy
    have hz := List.forall_mem_singleton.mp (ih (hw.of_child (by simp [hc])))
    refine List.forall_mem_singleton.mpr (every_forLoop.mpr ⟨⟨?_, nofun⟩, hz⟩)
    simp only [Stmt.operands, List.forall_mem_cons]
    exact ⟨htarget, hvalue, hx, hy, nofun⟩
  | whileLoop hr hc hcond hb hx hz ih =>
    have hx := Expr.ofTree_from (hw.of_child (by simp [hc])) hcond hx
    have hz := List.forall_mem_singleton.mp (ih (hw.of_child (by simp [hc])))
    exact List.forall_mem_singleton.mpr
      (every_whileLoop.mpr ⟨⟨List.forall_mem_singleton.mpr hx, nofun⟩, hz⟩)
  | doLoop hr hc hb hcond hss hx ih =>
    have hx := Expr.ofTree_from (hw.of_child (by simp [hc])) hcond hx
    exact List.forall_mem_singleton.mpr (every_doLoop.mpr
      ⟨⟨List.forall_mem_singleton.mpr hx, nofun⟩, ih (hw.of_child (by simp [hc]))⟩)
  | breakLoop hr | continueLoop hr | ret hr hc =>
    exact List.forall_mem_singleton.mpr ((every_of_substmts rfl).mpr ⟨nofun, nofun⟩)
  | retValue hr hc he hx =>
    have hx := Expr.ofTree_from (hw.of_child (by simp [hc])) he hx
    exact List.forall_mem_singleton.mpr
      ((every_of_substmts rfl).mpr ⟨List.forall_mem_singleton.mpr hx, nofun⟩)
  | @call t c n es hr hc hcall hes =>
    have hmade := ((Expr.recovered c).call hcall hes).from (hw.of_child (by simp [hc]))
    exact List.forall_mem_singleton.mpr ((every_of_substmts rfl).mpr ⟨hmade, nofun⟩)
  | assign hr hc ha hx =>
    obtain ⟨htarget, hvalue⟩ := Assign.ofTree_from (hw.of_child (by simp [hc])) hx
    refine List.forall_mem_singleton.mpr ((every_of_substmts rfl).mpr ⟨?_, nofun⟩)
    exact List.forall_mem_cons.mpr ⟨htarget, List.forall_mem_singleton.mpr hvalue⟩

end Stmt

/-! ### Declarations and programs -/

namespace Decl

/-- The names of a function and of its parent. -/
def names : Decl → List String
  | func f => f.name :: f.parent.toList
  | var _ => []

/-- The names, variables and expressions of a declaration were made of tokens. -/
structure From (root : Tree) (d : Decl) : Prop where
  names : ∀ n ∈ d.names, root.Names n
  params : ∀ x ∈ d.params, root.Names x.name
  vars : ∀ v ∈ d.vars, v.From root
  exprs : ∀ e ∈ d.exprs, e.From root

theorem func_from {f : FuncDecl} (hw : t.Within root) (h : FuncDecl.ofTree t = .ok f) :
    (func f).From root := by
  obtain ⟨n, ty, l, p, b, hc, hn, -, hl, hp, hb, hname, -, hlist, hnone, hparent, hbody⟩ :=
    FuncDecl.ofTree_ok h
  have hstmts : ∀ s ∈ Stmt.substmtsAll f.body, s.From root := Stmt.forall_mem_substmtsAll.mpr
    (((Stmt.recovered b).block hb hbody).from (hw.of_child (by simp [hc])))
  refine ⟨?_, ?_, ?_, ?_⟩
  · refine List.forall_mem_cons.mpr ⟨hname ▸ hw.names (by simp [hc]) hn, ?_⟩
    rw [hparent]
    intro x hx
    cases p with
    | none => cases hx
    | some u =>
      obtain rfl := List.mem_singleton.mp hx
      exact hw.names (by simp [hc]) (hp u rfl)
  · intro x hx
    cases l with
    | none =>
      rw [params, hnone rfl] at hx
      cases hx
    | some u =>
      obtain ⟨hrules, hps⟩ := Param.listOfTree_ok (hlist u rfl)
      obtain ⟨c, hmem, hx⟩ := exists_of_mem_mapM hps hx
      obtain ⟨i, o, m, ty, hcc, -, -, hm, -, -, hxname, -⟩ := Param.ofTree_ok hx
      have hwu : u.Within root := hw.of_child (by simp [hc])
      rw [hxname]
      exact (hwu.of_child hmem).names (by simp [hcc]) hm
  · intro v hv
    obtain ⟨s, hs, hv⟩ := List.mem_flatMap.mp hv
    exact (hstmts s hs).declared v hv
  · intro e he
    obtain ⟨x, hx, he⟩ := List.mem_flatMap.mp he
    obtain ⟨s, hs, hx⟩ := List.mem_flatMap.mp hx
    exact (hstmts s hs).operands x hx e he

theorem var_from {v : VarDecl} (h : v.From root) : (var v).From root :=
  ⟨nofun, nofun, List.forall_mem_singleton.mpr h, List.forall_mem_flatMap.mpr h.init⟩

theorem ofTree_from {ds : List Decl} (hw : t.Within root) (h : ofTree t = .ok ds) :
    ∀ d ∈ ds, d.From root := by
  obtain ⟨c, hc, ⟨f, -, hf, rfl⟩ | ⟨vs, -, hvs, rfl⟩⟩ := ofTree_ok h
  · exact List.forall_mem_singleton.mpr (func_from (hw.of_child (by simp [hc])) hf)
  · exact List.forall_mem_map.mpr fun v hv =>
      var_from (VarDecl.ofGroup_from (hw.of_child (by simp [hc])) hvs v hv)

end Decl

namespace Program

/-- All names of a program: those of its functions and their parents, of its parameters and
variables, and those in its expressions. -/
def names (p : Program) : List String :=
  p.decls.flatMap Decl.names ++ p.params.map Param.name ++ p.vars.map VarDecl.name ++
    p.exprs.flatMap Expr.names

/-- What holds of all names of a program holds of the names in its declarations. -/
theorem forall_mem_names {P : String → Prop} {p : Program} (h : ∀ n ∈ p.names, P n) :
    (∀ d ∈ p.decls, ∀ n ∈ d.names, P n) ∧ (∀ x ∈ p.params, P x.name) ∧ ∀ v ∈ p.vars, P v.name := by
  simp only [names, List.forall_mem_append, List.forall_mem_flatMap, List.forall_mem_map] at h
  exact ⟨h.1.1.1, h.1.1.2, h.1.2⟩

/-- The names and expressions of a program were made of tokens. -/
structure From (root : Tree) (p : Program) : Prop where
  names : ∀ n ∈ p.names, root.Names n
  exprs : ∀ e ∈ p.exprs, e.From root

/-- **Names and literals come from tokens**, whatever the tree that a program is made of. -/
theorem from_of_ofTree {p : Program} (h : Program.ofTree t = .ok p) : p.From t := by
  obtain ⟨ds, e, dss, hc, -, -, hdss, hp⟩ := Program.ofTree_ok h
  have hdecls : ∀ d ∈ p.decls, d.From t := by
    intro d hd
    rw [hp] at hd
    obtain ⟨bs, hbs, hd⟩ := List.mem_flatten.mp hd
    obtain ⟨c, hmem, hbs⟩ := exists_of_mem_mapM hdss hbs
    exact Decl.ofTree_from (Within.of_child (.self t) (by simp [hc, hmem])) hbs d hd
  have hexprs : ∀ e ∈ p.exprs, e.From t :=
    List.forall_mem_flatMap.mpr fun d hd => (hdecls d hd).exprs
  refine ⟨fun n hn => ?_, hexprs⟩
  simp only [names, List.mem_append, List.mem_map, List.mem_flatMap] at hn
  rcases hn with ((⟨d, hd, hn⟩ | ⟨x, hx, rfl⟩) | ⟨v, hv, rfl⟩) | ⟨e, he, hn⟩
  · exact (hdecls d hd).names n hn
  · obtain ⟨d, hd, hx⟩ := List.mem_flatMap.mp hx
    exact (hdecls d hd).params x hx
  · obtain ⟨d, hd, hv⟩ := List.mem_flatMap.mp hv
    exact ((hdecls d hd).vars v hv).name
  · exact (hexprs e he).names n hn

end Program

end Mt22
