import Mathlib.Data.List.TakeWhile
import Mt22.Proofs.Program.MadeDecl
import Mt22.Proofs.Program.Subterms
import Mt22.Proofs.Script.Accept
import Mt22.Proofs.Tree.Census

/-!
# Groups are flattened in place

A variable group declares one variable for each of its names (`VarDecl.Group`).  These stand, in the
order of the names, where the group stood: between the other declarations of a program
(`Decl.Flattens`), and between the other statements of a block (`Stmt.Flattens`).

For the program of a script this holds of its declarations, and of all blocks of its tree at any
depth: the blocks of the tree and the bodies of the program, both listed from the outside to the
inside, belong to each other one by one (`Script.program_flattens`).
-/

namespace Mt22

open Mt22.Tree Mt22.Visit

variable {t : Tree} {r : Rule}

/-! ### Groups -/

/-- The variables of a group: one for each name, in order, all with the one type of the group; the
initializers of the group, if it has any, are as many and give the first values in their order. -/
def VarDecl.Group (t : Tree) (vs : List VarDecl) : Prop :=
  ∃ (names type : Tree) (values : Option Tree) (τ : Ty), t.rule? = some .varDecl ∧
    t.children = names :: type :: values.toList ∧ names.rule? = some .nameList ∧
    type.rule? = some .varType ∧ Ty.ofVarType type = .ok τ ∧
    List.Forall₂ (fun n v => n.rule? = some .identifier ∧ v.name = n.string ∧ v.ty = τ)
      names.children vs ∧
    match values with
    | none => ∀ v ∈ vs, v.init = none
    | some list => list.rule? = some .initializers ∧
      List.Forall₂ (fun e v => e.rule? = some .expression ∧
        ∃ x, Expr.ofTree e = .ok x ∧ v.init = some x) list.children vs

/-- The results of a list, each with the member that it was made of. -/
theorem forall₂_of_mapM {α β : Type} {f : α → Except Fault β} {as : List α} {bs : List β}
    (h : as.mapM f = .ok bs) : List.Forall₂ (fun a b => a ∈ as ∧ f a = .ok b) as bs :=
  (List.forall₂_and_left _ _).mpr ⟨fun _ ha => ha, mapM_ok.mp h⟩

/-- What holds of the second of two lists holds where they are zipped. -/
theorem forall₂_zipWith {α β γ δ : Type} {f : α → β → γ} {R : δ → β → Prop} {S : δ → γ → Prop}
    (hf : ∀ a b d, R d b → S d (f a b)) {as : List α} {bs : List β} {ds : List δ}
    (h : List.Forall₂ R ds bs) (hlen : as.length = bs.length) :
    List.Forall₂ S ds (List.zipWith f as bs) := by
  induction h generalizing as with
  | nil => simp
  | @cons d b ds bs hd _ ih =>
    cases as with
    | nil => cases hlen
    | cons a as => exact .cons (hf a b d hd) (ih (Nat.succ.inj hlen))

theorem VarDecl.group_of_ofGroup {vs : List VarDecl} (hr : t.rule? = some .varDecl)
    (hc : t.Conforms) (h : ofGroup t = .ok vs) : Group t vs := by
  obtain ⟨n, ty, i, ns, τ, hch, hn, hty, hi, hns, hτ, hvs⟩ := ofGroup_ok h
  have hnames : ∀ c ∈ n.children, c.rule? = some .identifier := by
    have his : Is .nameList n := ⟨hn, hc.children n (by simp [hch])⟩
    exact fun c hmem => ((his.commaList .identifier (by decide) rfl).2 c hmem).rule
  have hstrings : ns = n.children.map Tree.string := by
    rw [names_ok hns, List.takeWhile_eq_self_iff.mpr]
    simpa using hnames
  refine ⟨n, ty, i, τ, hr, hch, hn, hty, hτ, ?_⟩
  rcases hvs with ⟨rfl, rfl⟩ | ⟨l, es, rfl, hes, hlen, rfl⟩
  · refine ⟨?_, by simp⟩
    rw [hstrings, List.map_map, List.forall₂_map_right_iff]
    exact List.forall₂_same.mpr fun c hmem => ⟨hnames c hmem, rfl, rfl⟩
  · obtain ⟨hexprs, hmap⟩ := values_ok hes
    have hlen : es.length = n.children.length := by rw [hlen, hstrings, List.length_map]
    rw [hstrings, List.zipWith_map_left]
    refine ⟨?_, hi l rfl, ?_⟩
    · rw [List.zipWith_comm]
      refine forall₂_zipWith (R := fun c d => c = d ∧ d.rule? = some .identifier) ?_ ?_ hlen
      · rintro x d _ ⟨rfl, hd⟩
        exact ⟨hd, rfl, rfl⟩
      · exact List.forall₂_same.mpr fun c hmem => ⟨rfl, hnames c hmem⟩
    · refine forall₂_zipWith (R := fun e x => e ∈ l.children ∧ Expr.ofTree e = .ok x) ?_ ?_ hlen.symm
      · rintro c x e ⟨he, hx⟩
        exact ⟨hexprs e he, x, hx, rfl⟩
      · exact forall₂_of_mapM hmap

/-! ### Declarations and blocks -/

/-- The declarations of a `declaration` node: one function, or the variables of a group. -/
def Decl.Flattens (t : Tree) (ds : List Decl) : Prop :=
  t.rule? = some .declaration ∧ ∃ c, t.children = [c] ∧
    ((∃ f, c.rule? = some .funcDecl ∧ FuncDecl.ofTree c = .ok f ∧ ds = [.func f]) ∨
      ∃ vs, VarDecl.Group c vs ∧ ds = vs.map .var)

/-- The statements of an item of a block: one statement, or the variables of a group. -/
def Stmt.Item (t : Tree) (ss : List Stmt) : Prop :=
  (∃ s, t.rule? = some .statement ∧ Stmt.ofTree t = .ok s ∧ ss = [s]) ∨
    ∃ vs, VarDecl.Group t vs ∧ ss = vs.map .declare

/-- The statements of a block are those of its items, one item after the other. -/
def Stmt.Flattens (t : Tree) (ss : List Stmt) : Prop :=
  ∃ items, List.Forall₂ Item t.children items ∧ ss = items.flatten

theorem Decl.flattens_of_ofTree {ds : List Decl} (hr : t.rule? = some .declaration)
    (hc : t.Conforms) (h : ofTree t = .ok ds) : Flattens t ds := by
  obtain ⟨c, hch, ⟨f, hrule, hf, rfl⟩ | ⟨vs, hrule, hvs, rfl⟩⟩ := ofTree_ok h
  · exact ⟨hr, c, hch, .inl ⟨f, hrule, hf, rfl⟩⟩
  · have hgroup := VarDecl.group_of_ofGroup hrule (hc.children c (by simp [hch])) hvs
    exact ⟨hr, c, hch, .inr ⟨vs, hgroup, rfl⟩⟩

theorem Stmt.item_of_ofItem {ss : List Stmt}
    (hr : t.rule? = some .varDecl ∨ t.rule? = some .statement) (hc : t.Conforms)
    (h : ofItem t = .ok ss) : Item t ss := by
  rw [ofItem] at h
  split at h
  · next hv =>
    obtain ⟨vs, hvs, rfl⟩ := fmap_eq_ok.mp h
    exact .inr ⟨vs, VarDecl.group_of_ofGroup hv hc hvs, rfl⟩
  · next hv =>
    obtain ⟨s, hs, rfl⟩ := fmap_eq_ok.mp h
    exact .inl ⟨s, hr.resolve_left hv, hs, rfl⟩

theorem Stmt.flattens_of_ofBlock {ss : List Stmt} (hc : t.Conforms) (h : ofBlock t = .ok ss) :
    Flattens t ss := by
  obtain ⟨hrules, items, hitems, rfl⟩ := ofBlock_ok h
  refine ⟨items, ?_, rfl⟩
  refine (forall₂_of_mapM hitems).imp fun c ss hcs => ?_
  exact item_of_ofItem (hrules c hcs.1) (hc.children c hcs.1) hcs.2

/-! ### All blocks of a tree -/

namespace Tree

/-- The blocks of a tree, each before those inside it. -/
def blocks (t : Tree) : List Tree := t.preorder.filter (·.rule? = some .block)

theorem blocks_of_block (h : t.rule? = some .block) : t.blocks = t :: t.children.flatMap blocks := by
  rw [blocks, preorder_eq h, List.filter_cons_of_pos (by simpa using h), List.filter_flatMap]
  rfl

theorem blocks_of_ne (h : t.rule? = some r) (hr : r ≠ .block) :
    t.blocks = t.children.flatMap blocks := by
  rw [blocks, preorder_eq h, List.filter_cons_of_neg (by simpa [h] using hr), List.filter_flatMap]
  rfl

end Tree

/-- A node with this rule is no block and has none inside it. -/
def Rule.isBlockless (r : Rule) : Bool :=
  r ∉ [.program, .declaration, .funcDecl, .block, .statement, .ifStmt, .forStmt, .whileStmt,
    .doWhileStmt]

theorem Rule.isBlockless_body (hr : r.isBlockless = true)
    (hk : r.kind = .plain ∨ r.kind = .compound) : ∀ q ∈ r.body.calls, q.isBlockless = true := by
  have hall : ∀ r ∈ Rule.all, r.isBlockless = true → r.kind = .plain ∨ r.kind = .compound →
      ∀ q ∈ r.body.calls, q.isBlockless = true := by
    decide
  exact hall r r.mem_all hr hk

namespace Tree

theorem Is.blocks_eq_nil (h : Is r t) (hr : r.isBlockless = true) : t.blocks = [] := by
  obtain ⟨hrule, hc⟩ := h
  have hne : r ≠ .block := by
    rintro rfl
    cases hr
  induction hc generalizing r with
  | token => rw [blocks_of_ne hrule hne]; rfl
  | @node r' a b ps kind tight fits parts ih =>
    obtain rfl := Option.some.inj hrule
    rw [blocks_of_ne hrule hne, List.flatMap_eq_nil_iff]
    intro c hmem
    obtain ⟨hmem, hnode⟩ := List.mem_filter.mp hmem
    cases c with
    | token | trivia => cases hnode
    | node q i j qs =>
      have hsolid : Tree.node q i j qs ∈ solid ps := List.mem_filter.mpr ⟨hmem, rfl⟩
      have hq := Rule.isBlockless_body hr kind q (fits.mem_calls _ hsolid q rfl)
      exact ih _ hmem hnode hq rfl (by rintro rfl; cases hq)

theorem Conforms.blocks_child {c : Tree} (h : t.Conforms) (hmem : c ∈ t.children)
    (hc : c.rule? = some r) (hr : r.isBlockless = true) : c.blocks = [] :=
  Is.blocks_eq_nil ⟨hc, h.children c hmem⟩ hr

end Tree

/-! ### All bodies of a program -/

namespace Stmt

/-- The statements between the braces of a statement. -/
def body? : Stmt → Option (List Stmt)
  | block body | doLoop body _ => some body
  | _ => none

/-- The bodies of a statement, each before those inside it. -/
def bodies (s : Stmt) : List (List Stmt) := s.substmts.filterMap body?

theorem filterMap_substmtsAll (ss : List Stmt) :
    (substmtsAll ss).filterMap body? = ss.flatMap bodies := by
  rw [substmtsAll_eq, List.filterMap_flatMap]
  rfl

@[simp] theorem bodies_block (ss : List Stmt) : (block ss).bodies = ss :: ss.flatMap bodies := by
  rw [← filterMap_substmtsAll]
  rfl

@[simp] theorem bodies_doLoop (ss : List Stmt) (e : Expr) :
    (doLoop ss e).bodies = ss :: ss.flatMap bodies := by
  rw [← filterMap_substmtsAll]
  rfl

@[simp] theorem bodies_ifThen (e : Expr) (s : Stmt) : (ifThen e s).bodies = s.bodies := by
  rw [bodies, substmts, List.filterMap_cons_none rfl, bodies]

@[simp] theorem bodies_ifElse (e : Expr) (a b : Stmt) :
    (ifElse e a b).bodies = a.bodies ++ b.bodies := by
  rw [bodies, substmts, List.filterMap_cons_none rfl, List.filterMap_append, bodies, bodies]

@[simp] theorem bodies_whileLoop (e : Expr) (s : Stmt) : (whileLoop e s).bodies = s.bodies := by
  rw [bodies, substmts, List.filterMap_cons_none rfl, bodies]

@[simp] theorem bodies_forLoop (i : Assign) (e u : Expr) (s : Stmt) :
    (forLoop i e u s).bodies = s.bodies := by
  rw [bodies, substmts, List.filterMap_cons_none rfl, bodies]

theorem flatMap_bodies_declare (vs : List VarDecl) : (vs.map declare).flatMap bodies = [] := by
  rw [List.flatMap_eq_nil_iff]
  intro s hs
  obtain ⟨v, -, rfl⟩ := List.mem_map.mp hs
  rfl

end Stmt

/-- The bodies of a declaration, each before those inside it. -/
def Decl.bodies : Decl → List (List Stmt)
  | func f => f.body :: f.body.flatMap Stmt.bodies
  | var _ => []

/-- The bodies of a program, each before those inside it. -/
def Program.bodies (p : Program) : List (List Stmt) := p.decls.flatMap Decl.bodies

/-! ### Blocks and bodies -/

namespace Stmt

/-- The blocks of a node are flattened to the bodies of what is made of it, as a statement or as a
block. -/
structure Flattened (t : Tree) : Prop where
  statement : ∀ {s : Stmt}, t.rule? = some .statement → t.Conforms → ofTree t = .ok s →
    List.Forall₂ Flattens t.blocks s.bodies
  block : ∀ {ss : List Stmt}, t.rule? = some .block → t.Conforms → ofBlock t = .ok ss →
    List.Forall₂ Flattens t.blocks (ss :: ss.flatMap bodies)

section Step

variable {s : Stmt} (hc : t.Conforms) (ih : ∀ u ∈ t.children, Flattened u)
include hc ih

theorem Flattened.if_step (hr : t.rule? = some .ifStmt) (h : ofIf t = .ok s) :
    List.Forall₂ Flattens t.blocks s.bodies := by
  obtain ⟨e, a, b, x, y, hch, he, ha, hb, -, hy, hcase⟩ := ofIf_ok h
  have hcond := hc.blocks_child (by simp [hch]) he rfl
  have hfirst := (ih a (by simp [hch])).statement ha (hc.children a (by simp [hch])) hy
  rw [blocks_of_ne hr (by decide), hch]
  rcases hcase with ⟨rfl, rfl⟩ | ⟨d, z, rfl, hz, rfl⟩
  · simpa [hcond] using hfirst
  · have hsecond := (ih d (by simp [hch])).statement (hb d rfl) (hc.children d (by simp [hch])) hz
    simpa [hcond] using List.rel_append hfirst hsecond

theorem Flattened.for_step (hr : t.rule? = some .forStmt) (h : ofFor t = .ok s) :
    List.Forall₂ Flattens t.blocks s.bodies := by
  obtain ⟨a, c, u, b, i, x, y, z, hch, ha, hcond, hu, hb, -, -, -, hz, rfl⟩ := ofFor_ok h
  have hbody := (ih b (by simp [hch])).statement hb (hc.children b (by simp [hch])) hz
  rw [blocks_of_ne hr (by decide), hch]
  simpa [hc.blocks_child (by simp [hch]) ha rfl, hc.blocks_child (by simp [hch]) hcond rfl,
    hc.blocks_child (by simp [hch]) hu rfl] using hbody

theorem Flattened.while_step (hr : t.rule? = some .whileStmt) (h : ofWhile t = .ok s) :
    List.Forall₂ Flattens t.blocks s.bodies := by
  obtain ⟨c, b, x, z, hch, hcond, hb, -, hz, rfl⟩ := ofWhile_ok h
  have hbody := (ih b (by simp [hch])).statement hb (hc.children b (by simp [hch])) hz
  rw [blocks_of_ne hr (by decide), hch]
  simpa [hc.blocks_child (by simp [hch]) hcond rfl] using hbody

theorem Flattened.do_step (hr : t.rule? = some .doWhileStmt) (h : ofDo t = .ok s) :
    List.Forall₂ Flattens t.blocks s.bodies := by
  obtain ⟨b, c, ss, x, hch, hb, hcond, hss, -, rfl⟩ := ofDo_ok h
  have hbody := (ih b (by simp [hch])).block hb (hc.children b (by simp [hch])) hss
  rw [blocks_of_ne hr (by decide), hch]
  simpa [hc.blocks_child (by simp [hch]) hcond rfl] using hbody

theorem Flattened.block_step {ss : List Stmt} (hr : t.rule? = some .block)
    (h : ofBlock t = .ok ss) : List.Forall₂ Flattens t.blocks (ss :: ss.flatMap bodies) := by
  rw [blocks_of_block hr]
  refine .cons (flattens_of_ofBlock hc h) ?_
  obtain ⟨hrules, items, hitems, rfl⟩ := ofBlock_ok h
  rw [← List.flatMap_id, List.flatMap_assoc]
  refine List.rel_flatMap (forall₂_of_mapM hitems) ?_
  rintro c ss ⟨hmem, hitem⟩
  have hconf := hc.children c hmem
  rw [ofItem] at hitem
  split at hitem
  · next hv =>
    obtain ⟨vs, -, rfl⟩ := fmap_eq_ok.mp hitem
    rw [hc.blocks_child hmem hv rfl]
    show List.Forall₂ Flattens [] ((vs.map declare).flatMap bodies)
    rw [flatMap_bodies_declare]
    exact .nil
  · next hv =>
    obtain ⟨s, hs, rfl⟩ := fmap_eq_ok.mp hitem
    simpa using (ih c hmem).statement ((hrules c hmem).resolve_left hv) hconf hs

/-- A form of statement that is not a block, with the statement that it is in. -/
theorem Flattened.form_step {u : Tree} (hu : u.children = [t]) (hr : t.rule? = some r)
    (hmem : r ∈ formRules) (hne : r ≠ .block) (h : ofTree u = .ok s) :
    List.Forall₂ Flattens t.blocks s.bodies := by
  have hplain : r.isBlockless = true → s.bodies = [] → List.Forall₂ Flattens t.blocks s.bodies := by
    intro hless hbodies
    rw [Is.blocks_eq_nil ⟨hr, hc⟩ hless, hbodies]
    exact .nil
  rw [ofTree_eq hu hr hmem] at h
  simp only [formRules, List.mem_cons, List.not_mem_nil, or_false] at hmem
  rcases hmem with rfl | rfl | rfl | rfl | rfl | rfl | rfl | rfl | rfl | rfl
  · exact Flattened.if_step hc ih hr h
  · exact Flattened.for_step hc ih hr h
  · exact Flattened.while_step hc ih hr h
  · exact Flattened.do_step hc ih hr h
  · cases h
    exact hplain rfl rfl
  · cases h
    exact hplain rfl rfl
  · rcases ofReturn_ok h with ⟨-, rfl⟩ | ⟨e, x, -, -, -, rfl⟩ <;> exact hplain rfl rfl
  · exact absurd rfl hne
  · obtain ⟨c, n, es, -, -, -, rfl⟩ := ofCall_ok h
    exact hplain rfl rfl
  · obtain ⟨c, a, -, -, -, rfl⟩ := ofAssign_ok h
    exact hplain rfl rfl

end Step

theorem Flattened.step (ih : ∀ u : Tree, sizeOf u < sizeOf t → Flattened u) : Flattened t where
  statement := by
    intro s hr hc h
    obtain ⟨f, r, hch, hf, hmem⟩ := form_of_ofTree_ok h
    have hlt : sizeOf f < sizeOf t := sizeOf_lt_of_mem_children (by simp [hch])
    have hconf : f.Conforms := hc.children f (by simp [hch])
    have hblocks : t.blocks = f.blocks := by simp [blocks_of_ne hr, hch]
    rw [hblocks]
    by_cases hb : r = .block
    · subst hb
      rw [ofTree_eq hch hf hmem] at h
      obtain ⟨ss, hss, rfl⟩ := fmap_eq_ok.mp h
      simpa using (ih f hlt).block hf hconf hss
    · refine Flattened.form_step hconf (fun u hu => ?_) hch hf hmem hb h
      exact ih u (Nat.lt_trans (sizeOf_lt_of_mem_children hu) hlt)
  block := by
    intro ss hr hc h
    exact Flattened.block_step hc (fun u hu => ih u (sizeOf_lt_of_mem_children hu)) hr h

theorem flattened (t : Tree) : Flattened t :=
  Flattened.step fun u _ => flattened u
termination_by sizeOf t

end Stmt

theorem FuncDecl.blocks_of_ofTree {f : FuncDecl} (hr : t.rule? = some .funcDecl) (hc : t.Conforms)
    (h : ofTree t = .ok f) : List.Forall₂ Stmt.Flattens t.blocks (Decl.func f).bodies := by
  obtain ⟨n, ty, l, p, b, hch, hn, hty, hl, hp, hb, -, -, -, -, -, hbody⟩ := FuncDecl.ofTree_ok h
  have hparams : l.toList.flatMap blocks = [] := by
    rw [List.flatMap_eq_nil_iff]
    intro x hx
    exact hc.blocks_child (by simp_all) (hl x (Option.mem_toList.mp hx)) rfl
  have hparent : p.toList.flatMap blocks = [] := by
    rw [List.flatMap_eq_nil_iff]
    intro x hx
    exact hc.blocks_child (by simp_all) (hp x (Option.mem_toList.mp hx)) rfl
  have hblocks : t.blocks = b.blocks := by
    rw [blocks_of_ne hr (by decide), hch]
    simp [hc.blocks_child (by simp [hch]) hn rfl, hc.blocks_child (by simp [hch]) hty rfl, hparams,
      hparent]
  rw [hblocks]
  exact (Stmt.flattened b).block hb (hc.children b (by simp [hch])) hbody

theorem Decl.blocks_of_ofTree {ds : List Decl} (hr : t.rule? = some .declaration) (hc : t.Conforms)
    (h : ofTree t = .ok ds) : List.Forall₂ Stmt.Flattens t.blocks (ds.flatMap bodies) := by
  obtain ⟨c, hch, ⟨f, hrule, hf, rfl⟩ | ⟨vs, hrule, hvs, rfl⟩⟩ := ofTree_ok h
  · have hblocks : t.blocks = c.blocks := by simp [blocks_of_ne hr, hch]
    rw [hblocks, List.flatMap_singleton]
    exact FuncDecl.blocks_of_ofTree hrule (hc.children c (by simp [hch])) hf
  · have hbodies : (vs.map Decl.var).flatMap bodies = [] := by simp [bodies]
    rw [blocks_of_ne hr (by decide), hch, List.flatMap_singleton,
      hc.blocks_child (by simp [hch]) hrule rfl, hbodies]
    exact .nil

theorem Program.blocks_of_ofTree {p : Program} (ht : Is .program t) (h : Program.ofTree t = .ok p) :
    List.Forall₂ Stmt.Flattens t.blocks p.bodies := by
  obtain ⟨ds, e, dss, hch, hds, he, hdss, hp⟩ := Program.ofTree_ok h
  have hend : e.blocks = [] := ht.conforms.blocks_child (by simp [hch]) he rfl
  rw [blocks_of_ne ht.rule (by decide), hch, List.flatMap_append, List.flatMap_singleton, hend,
    List.append_nil, bodies, hp, ← List.flatMap_id, List.flatMap_assoc]
  refine List.rel_flatMap (forall₂_of_mapM hdss) ?_
  rintro d ds' ⟨hmem, hd⟩
  exact Decl.blocks_of_ofTree (hds d hmem) (ht.conforms.children d (by simp [hch, hmem])) hd

/-- **Groups are flattened where they stand.**  The declarations of the program of a script are those
of the `declaration` nodes of its tree, in order: for each function one, and for each variable group
its variables.  The bodies of the program are in the same way those of the blocks of the tree, at
any depth. -/
theorem Script.program_flattens (s : Script) (p : Program) (h : s.program = .ok p) :
    ∃ t, s.parse = .ok t ∧
      (∃ ds e parts, t.children = ds ++ [e] ∧ e.rule? = some .eoi ∧
        List.Forall₂ Decl.Flattens ds parts ∧ p.decls = parts.flatten) ∧
      List.Forall₂ Stmt.Flattens t.blocks p.bodies := by
  obtain ⟨t, ht, hp⟩ := program_eq_ok_iff.mp h
  have his := is_of_parse ht
  refine ⟨t, ht, ?_, Program.blocks_of_ofTree his hp⟩
  obtain ⟨ds, e, dss, hch, hds, he, hdss, hdecls⟩ := Program.ofTree_ok hp
  refine ⟨ds, e, dss, hch, he, (forall₂_of_mapM hdss).imp ?_, hdecls⟩
  rintro d ds' ⟨hmem, hd⟩
  exact Decl.flattens_of_ofTree (hds d hmem) (his.conforms.children d (by simp [hch, hmem])) hd

/-- Three declarations, and the statements of a function, of its loop and of its inner block. -/
theorem Script.program_flattens_nested :
    let s := Script.ofSource "a"
      "x,y:integer=1,2;f:function void(){a,b:auto;do{c,d:float=1.,2.;return;}while(a);{e:auto;}}"
    ∃ p t, s.program = .ok p ∧ s.parse = .ok t ∧
      (∃ ds e parts, t.children = ds ++ [e] ∧ e.rule? = some .eoi ∧
        List.Forall₂ Decl.Flattens ds parts ∧ p.decls = parts.flatten) ∧
      List.Forall₂ Stmt.Flattens t.blocks p.bodies ∧
      p.decls.length = 3 ∧ p.bodies.map List.length = [4, 3, 1] := by
  intro s
  have hok : s.program.toOption.map (fun p => (p.decls.length, p.bodies.map List.length)) =
      some (3, [4, 3, 1]) := by
    decide +kernel
  obtain ⟨p, hp, hcounts⟩ := exists_program hok
  obtain ⟨t, ht, hdecls, hblocks⟩ := program_flattens s p hp
  obtain ⟨hlength, hbodies⟩ := Prod.mk.inj hcounts
  exact ⟨p, t, hp, ht, hdecls, hblocks, hlength, hbodies⟩

end Mt22
