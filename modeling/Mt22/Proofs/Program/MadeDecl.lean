import Mt22.Proofs.Program.MadeStmt

/-!
# What declarations were made of

The children of the node of a parameter, a function, a declaration or a program, and the results
that were made of them, where the node has given a result.
-/

namespace Mt22

open Mt22.Tree Mt22.Visit

variable {t : Tree}

theorem Param.ofTree_ok {p : Param} (h : ofTree t = .ok p) :
    ∃ (i o : Option Tree) (n ty : Tree), t.children = i.toList ++ (o.toList ++ [n, ty]) ∧
      (∀ x ∈ i, x.rule? = some .kwInherit) ∧ (∀ x ∈ o, x.rule? = some .kwOut) ∧
      n.rule? = some .identifier ∧ ty.rule? = some .varType ∧ Ty.ofVarType ty = .ok p.ty ∧
      p.name = n.string ∧ p.inherit = i.isSome ∧ p.out = o.isSome := by
  rw [ofTree, visitAll_ok] at h
  simp only [run_bind_ok, expect_ok, lift_ok, run_pure_ok] at h
  obtain ⟨i, cs, hi, o, _, ho, n, _, ⟨rfl, hn⟩, ty, _, ⟨rfl, hty⟩, τ, _, ⟨hτ, rfl⟩, rfl, rfl⟩ := h
  have hn : n.tree.rule? = some .identifier := by rw [n.rule?_eq, hn]
  have hty : ty.tree.rule? = some .varType := by rw [ty.rule?_eq, hty]
  rcases flag_ok hi with ⟨c, rfl, hcs, hc⟩ | ⟨rfl, hcs⟩
  · rcases flag_ok ho with ⟨d, rfl, rfl, hd⟩ | ⟨rfl, rfl⟩
    · exact ⟨some c.tree, some d.tree, n.tree, ty.tree, children_of_childList hcs,
        by simp [c.rule?_eq, hc], by simp [d.rule?_eq, hd], hn, hty, hτ, rfl, rfl, rfl⟩
    · exact ⟨some c.tree, none, n.tree, ty.tree, children_of_childList hcs,
        by simp [c.rule?_eq, hc], by simp, hn, hty, hτ, rfl, rfl, rfl⟩
  · rcases flag_ok ho with ⟨d, rfl, rfl, hd⟩ | ⟨rfl, rfl⟩
    · exact ⟨none, some d.tree, n.tree, ty.tree, children_of_childList hcs, by simp,
        by simp [d.rule?_eq, hd], hn, hty, hτ, rfl, rfl, rfl⟩
    · exact ⟨none, none, n.tree, ty.tree, children_of_childList hcs, by simp, by simp, hn, hty, hτ,
        rfl, rfl, rfl⟩

theorem Param.listOfTree_ok {ps : List Param} (h : listOfTree t = .ok ps) :
    (∀ c ∈ t.children, c.rule? = some .paramDecl) ∧ t.children.mapM Param.ofTree = .ok ps :=
  visitAll_many_ok h

/-- What follows the parameters of a function: the name of its parent, if it has one, and its
body. -/
theorem FuncDecl.rest_ok {cs : List t.Child} {name : String} {ty : Ty} {params : List Param}
    {f : FuncDecl}
    (h : (do
      let parent ← Visit.optional .identifier
      let body ← Stmt.ofBlock (← expect .block).tree
      return ⟨name, ty, params, parent.map (·.tree.string), body⟩ : Visit t FuncDecl) cs =
        .ok (f, [])) :
    ∃ (p : Option Tree) (b : Tree) (body : List Stmt), cs.map Child.tree = p.toList ++ [b] ∧
      (∀ x ∈ p, x.rule? = some .identifier) ∧ b.rule? = some .block ∧ Stmt.ofBlock b = .ok body ∧
      f = ⟨name, ty, params, p.map Tree.string, body⟩ := by
  simp only [run_bind_ok, expect_ok, lift_ok, run_pure_ok] at h
  obtain ⟨o, _, ho, b, _, ⟨rfl, hb⟩, ss, _, ⟨hss, rfl⟩, rfl, rfl⟩ := h
  have hb : b.tree.rule? = some .block := by rw [b.rule?_eq, hb]
  rcases optional_ok ho with ⟨c, rfl, rfl, hc⟩ | ⟨rfl, rfl⟩
  · exact ⟨some c.tree, b.tree, ss, rfl, by simp [c.rule?_eq, hc], hb, hss, rfl⟩
  · exact ⟨none, b.tree, ss, rfl, by simp, hb, hss, rfl⟩

theorem FuncDecl.ofTree_ok {f : FuncDecl} (h : ofTree t = .ok f) :
    ∃ (n ty : Tree) (l p : Option Tree) (b : Tree),
      t.children = n :: ty :: (l.toList ++ (p.toList ++ [b])) ∧ n.rule? = some .identifier ∧
      ty.rule? = some .funcType ∧ (∀ x ∈ l, x.rule? = some .paramList) ∧
      (∀ x ∈ p, x.rule? = some .identifier) ∧ b.rule? = some .block ∧ f.name = n.string ∧
      Ty.ofFuncType ty = .ok f.returnType ∧ (∀ x ∈ l, Param.listOfTree x = .ok f.params) ∧
      (l = none → f.params = []) ∧ f.parent = p.map Tree.string ∧
      Stmt.ofBlock b = .ok f.body := by
  rw [ofTree, visitAll_ok] at h
  simp only [run_bind_ok, expect_ok, lift_ok] at h
  obtain ⟨n, _, ⟨hcs, hn⟩, ty, _, ⟨rfl, hty⟩, τ, _, ⟨hτ, rfl⟩, o, _, ho, h⟩ := h
  have hchildren := children_of_childList hcs
  have hn : n.tree.rule? = some .identifier := by rw [n.rule?_eq, hn]
  have hty : ty.tree.rule? = some .funcType := by rw [ty.rule?_eq, hty]
  rcases optional_ok ho with ⟨l, rfl, rfl, hl⟩ | ⟨rfl, rfl⟩
  · obtain ⟨ps, _, hlift, hrun⟩ := run_bind_ok.mp h
    obtain ⟨hps, rfl⟩ := lift_ok.mp hlift
    obtain ⟨p, b, ss, hrest, hp, hb, hss, rfl⟩ := FuncDecl.rest_ok hrun
    refine ⟨n.tree, ty.tree, some l.tree, p, b, ?_, hn, hty, by simp [l.rule?_eq, hl], hp, hb, rfl,
      hτ, by simp [hps], by simp, rfl, hss⟩
    rw [hchildren, ← hrest]
    rfl
  · obtain ⟨ps, _, hpure, hrun⟩ := run_bind_ok.mp h
    obtain ⟨rfl, rfl⟩ := run_pure_ok.mp hpure
    obtain ⟨p, b, ss, hrest, hp, hb, hss, rfl⟩ := FuncDecl.rest_ok hrun
    refine ⟨n.tree, ty.tree, none, p, b, ?_, hn, hty, by simp, hp, hb, rfl, hτ, by simp,
      fun _ => rfl, rfl, hss⟩
    rw [hchildren, ← hrest]
    rfl

theorem Decl.ofTree_ok {ds : List Decl} (h : ofTree t = .ok ds) :
    ∃ d, t.children = [d] ∧
      ((∃ f, d.rule? = some .funcDecl ∧ FuncDecl.ofTree d = .ok f ∧ ds = [.func f]) ∨
        ∃ vs, d.rule? = some .varDecl ∧ VarDecl.ofGroup d = .ok vs ∧ ds = vs.map .var) := by
  rw [ofTree, visitAll_ok] at h
  obtain ⟨c, cs, v, hcs, hv, h⟩ := next_bind_ok h
  have hrule := c.rule?_eq
  suffices cs = [] ∧ _ from ⟨c.tree, by rw [children_of_childList hcs, this.1]; rfl, this.2⟩
  split at hv
  · next hr =>
    subst hv
    simp only [run_bind_ok, lift_ok, run_pure_ok] at h
    obtain ⟨f, _, ⟨hf, rfl⟩, rfl, rfl⟩ := h
    exact ⟨rfl, .inl ⟨f, by rw [hrule, hr], hf, rfl⟩⟩
  · next hr =>
    subst hv
    simp only [run_bind_ok, lift_ok, run_pure_ok] at h
    obtain ⟨vs, _, ⟨hvs, rfl⟩, rfl, rfl⟩ := h
    exact ⟨rfl, .inr ⟨vs, by rw [hrule, hr], hvs, rfl⟩⟩
  · subst hv
    cases h

theorem Program.ofTree_ok {p : Program} (h : ofTree t = .ok p) :
    ∃ ds e dss, t.children = ds ++ [e] ∧ (∀ d ∈ ds, d.rule? = some .declaration) ∧
      e.rule? = some .eoi ∧ ds.mapM Decl.ofTree = .ok dss ∧ p.decls = dss.flatten := by
  rw [ofTree, visitAll_ok] at h
  simp only [run_bind_ok, mapM_run_ok, expect_ok, run_pure_ok] at h
  obtain ⟨cs, _, hmany, dss, _, ⟨hdss, rfl⟩, e, _, ⟨rfl, he⟩, rfl, rfl⟩ := h
  obtain ⟨hcs, hrule⟩ := many_ok hmany
  refine ⟨cs.map Child.tree, e.tree, dss, ?_, ?_, by rw [e.rule?_eq, he], hdss, rfl⟩
  · rw [children_of_childList hcs, List.map_append]
    rfl
  · intro d hd
    obtain ⟨c, hc, rfl⟩ := List.mem_map.mp hd
    rw [c.rule?_eq, hrule c hc]

end Mt22
