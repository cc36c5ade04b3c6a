import Mt22.Proofs.Program.MadeDecl
import Mt22.Proofs.Program.SettleExpr

/-!
# First faults of programs

Statements, declarations and whole programs are settled by their faults as expressions are.  For a
program this says which fault is reported when no program can be made of a tree: one that no other
comes before (`Program.settles_ofTree`).
-/

namespace Mt22

open Mt22.Tree Mt22.Visit Mt22.Frame

variable {t : Tree}

/-! ### Variable groups and assignments -/

namespace VarDecl

/-- Nothing can be wrong with a list of names. -/
theorem none_nameList (ht : t.rule? = some .nameList) : t.Raises.None := by
  have hnames : ∀ c ∈ t.examined, c.rule? = some .identifier := by
    intro c hc
    rw [examined, ht] at hc
    exact rule_of_mem_takeWhile hc
  refine raises_none ht ?_ (fun _ _ => not_special ht rfl) ?_
  · exact Peg.admitsAny_singleton.mp (Peg.admitsAny_of_loop rfl
      ⟨_, List.mem_singleton_self _, rfl⟩ ⟨_, List.mem_singleton_self _, rfl⟩ hnames)
  · exact fun c hc => none_of_isAtomic (hnames c hc) rfl

theorem settles_names (ht : t.rule? = some .nameList) : t.Raises.Settles (names t) :=
  ⟨fun _ _ => none_nameList ht, by rintro f ⟨⟩⟩

theorem settles_values (ht : t.rule? = some .initializers) : t.Raises.Settles (values t) := by
  refine settles_plain ht (by decide) fun F hwhole hfree => ?_
  exact goes_items hwhole hfree (by decide) rfl (by decide) fun c => Expr.settles_ofTree

theorem length_of_names {ns : List String} (h : names t = .ok ns) :
    ns.length = (t.children.takeWhile (·.rule? = some .identifier)).length := by
  rw [names_ok h, List.length_map]

theorem length_of_values {es : List Expr} (h : values t = .ok es) :
    es.length = t.children.length := length_of_mapM (values_ok h).2

theorem exists_of_drop_two {α : Type} {a b : α} {as bs : List α} (h0 : as[0]? = some b)
    (h : as.drop 2 = a :: bs) : ∃ c, as = b :: c :: a :: bs := by
  match as, h0, h with
  | d :: c :: as, h0, h =>
    obtain rfl := Option.some.inj h0
    exact ⟨c, congrArg (d :: c :: ·) h⟩

theorem settles_ofGroup (ht : t.rule? = some .varDecl) : t.Raises.Settles (ofGroup t) := by
  refine settles_whole ht (by decide) (isSigned_of_rule ht (by decide)) fun F hwhole hF => ?_
  have hfree : ∀ i < 2, F.Free i := by
    intro i hi p f hf
    rw [hF] at hf
    obtain ⟨_, _, _, _, -, hq, -⟩ := hf.of_varDecl ht
    have := (List.cons.inj hq).1
    omega
  refine (goes_expect (by decide)).bind fun n => ?_
  refine (goes_read (by decide) settles_names).bind fun ns => ?_
  refine .given fun _ hstart => ?_
  obtain ⟨hn, -, hns⟩ := hstart
  have hnames := length_of_names hns
  have hfirst : t.children[0]? = some n.tree := hwhole ▸ hn.1.head_cons
  refine .pre ?_ fun cs h => h.1.step hwhole (hfree 0 (by decide)) (by decide) h.2.1
  refine (goes_expect (by decide)).bind fun ty => ?_
  refine (goes_child hwhole (hfree 1 (by decide)) (by decide) Ty.settles_ofVarType).bind fun τ => ?_
  refine goes_optional (fun l => ?_) (goes_end (by decide))
  refine (goes_read (by decide) settles_values).bind fun vs => ?_
  dsimp only
  split
  · next hne =>
    refine goes_fail (fun _ => rfl) ?_
    rintro cs ⟨hl, hnone, hvs⟩
    obtain ⟨c, hc⟩ := exists_of_drop_two hfirst hl.1.left.symm
    have hne : ns.length ≠ vs.length := Ne.symm (bne_iff_ne.mp hne)
    rw [length_of_values hvs] at hne ⊢
    refine hl.isFirst_special (p := [l.tree.children.length]) (by decide) hnone ?_
    rw [hF]
    exact .inr (.count ht hc hn.rule? hl.rule? hnames (values_ok hvs).1 hne)
  · next heq =>
    refine goes_pure fun cs ⟨hl, hnone, hvs⟩ => ?_
    refine ⟨_, _, _, hl.step hwhole (fun p f hf => ?_) (by decide) hnone, by decide⟩
    rw [hF] at hf
    obtain ⟨ns', ty', vs', rest, hc', -, hne⟩ := hf.of_varDecl ht
    obtain ⟨c, hc⟩ := exists_of_drop_two hfirst hl.1.left.symm
    obtain ⟨rfl, hc⟩ := List.cons.inj (hc.symm.trans hc')
    obtain ⟨rfl, -⟩ := List.cons.inj (List.cons.inj hc).2
    refine hne ?_
    rw [← hnames, ← length_of_values hvs]
    simpa using Eq.symm (of_not_not fun h => heq (bne_iff_ne.mpr h))

end VarDecl

theorem Target.settles_ofTree (ht : t.rule? = some .lhs) : t.Raises.Settles (ofTree t) := by
  refine settles_plain ht (by decide) fun F hwhole hfree => ?_
  have hasks : asks [Rule.lhs.demand] [] [.identifier, .arrayCell] = true := by decide
  refine (goes_next hasks).bind fun c => ?_
  split
  · next hr => exact .of_rule hr (.take hwhole (hfree 0) rfl (by decide) (goes_end (by decide)))
  · next hr =>
    refine .of_rule hr ((goes_child hwhole (hfree 0) (by decide) (Expr.settled _).cell).bind fun _ => ?_)
    exact goes_end (by decide)
  · exact goes_unexpected hasks (by simp_all)

theorem Assign.settles_ofTree (ht : t.rule? = some .assign) : t.Raises.Settles (ofTree t) := by
  refine settles_plain ht (by decide) fun F hwhole hfree => ?_
  refine (goes_expect (by decide)).bind fun l => ?_
  refine (goes_child hwhole (hfree 0) (by decide) Target.settles_ofTree).bind fun x => ?_
  refine (goes_expect (by decide)).bind fun e => ?_
  refine (goes_child hwhole (hfree 1) (by decide) Expr.settles_ofTree).bind fun y => ?_
  exact goes_end (by decide)

/-! ### Statements -/

namespace Stmt

theorem settles_ofReturn (ht : t.rule? = some .returnStmt) : t.Raises.Settles (ofReturn t) := by
  refine settles_plain ht (by decide) fun F hwhole hfree => ?_
  refine goes_optional (fun e => ?_) (goes_end (by decide))
  refine (goes_child hwhole (hfree 0) (by decide) Expr.settles_ofTree).bind fun _ => ?_
  exact goes_end (by decide)

theorem settles_ofCall (ht : t.rule? = some .callStmt) : t.Raises.Settles (ofCall t) := by
  refine settles_plain ht (by decide) fun F hwhole hfree => ?_
  refine (goes_expect (by decide)).bind fun c => ?_
  refine (goes_child hwhole (hfree 0) (by decide) (Expr.settled c.tree).call).bind fun _ => ?_
  exact goes_end (by decide)

theorem settles_ofAssign (ht : t.rule? = some .assignStmt) : t.Raises.Settles (ofAssign t) := by
  refine settles_plain ht (by decide) fun F hwhole hfree => ?_
  refine (goes_expect (by decide)).bind fun c => ?_
  refine (goes_child hwhole (hfree 0) (by decide) Assign.settles_ofTree).bind fun _ => ?_
  exact goes_end (by decide)

/-- A block asks for variable groups and statements, and for the same after each of them. -/
structure BlockAsks (S : List Peg) : Prop where
  closes : closes S [.varDecl, .statement] = true
  goesGroup : goesOn S .varDecl = true
  goesStatement : goesOn S .statement = true
  group : Peg.advance S .varDecl = Peg.advance [Rule.block.demand] .varDecl
  statement : Peg.advance S .statement = Peg.advance [Rule.block.demand] .varDecl

theorem blockAsks_start : BlockAsks [Rule.block.demand] :=
  ⟨by decide, by decide, by decide, rfl, rfl⟩

theorem blockAsks_after : BlockAsks (Peg.advance [Rule.block.demand] .varDecl) :=
  ⟨by decide, by decide, by decide, rfl, rfl⟩

/-- What is made of `t` at any place of a statement is settled by the faults of `t`. -/
structure Settled (t : Tree) : Prop where
  statement : t.rule? = some .statement → t.Raises.Settles (ofTree t)
  conditional : t.rule? = some .ifStmt → t.Raises.Settles (ofIf t)
  forLoop : t.rule? = some .forStmt → t.Raises.Settles (ofFor t)
  whileLoop : t.rule? = some .whileStmt → t.Raises.Settles (ofWhile t)
  doLoop : t.rule? = some .doWhileStmt → t.Raises.Settles (ofDo t)
  block : t.rule? = some .block → t.Raises.Settles (ofBlock t)

section Step

variable (ih : ∀ u : Tree, sizeOf u < sizeOf t → Settled u)
include ih

theorem Settled.statement_step (ht : t.rule? = some .statement) : t.Raises.Settles (ofTree t) := by
  rw [ofTree]
  refine settles_plain ht (by decide) fun F hwhole hfree => ?_
  have hasks : asks [Rule.statement.demand] [] [.ifStmt, .forStmt, .whileStmt, .doWhileStmt,
      .breakStmt, .continueStmt, .returnStmt, .block, .callStmt, .assignStmt] = true := by decide
  refine (goes_next hasks).bind fun c => ?_
  have hc := ih c.tree c.sizeOf_lt
  -- what is left is the same after a statement of any form
  have hlast : ∀ {r x}, c.rule = r →
      (goesOn [Rule.statement.demand] r && closes (Peg.advance [Rule.statement.demand] r) []) = true →
      (c.tree.rule? = some r → c.tree.Raises.Settles x) →
      F.Goes (fun cs => F.At 0 [Rule.statement.demand] [] (c :: cs)) (liftM x : Visit t Stmt)
        fun _ => F.Ended := by
    intro r x hr hgo hx
    obtain ⟨hgo, hend⟩ := Bool.and_eq_true_iff.mp hgo
    exact .of_rule hr (goes_last hwhole (hfree 0) hgo hend hx)
  split
  · next hr => exact hlast hr (by decide) hc.conditional
  · next hr => exact hlast hr (by decide) hc.forLoop
  · next hr => exact hlast hr (by decide) hc.whileLoop
  · next hr => exact hlast hr (by decide) hc.doLoop
  · next hr => exact .of_rule hr (.take hwhole (hfree 0) rfl (by decide) (goes_end (by decide)))
  · next hr => exact .of_rule hr (.take hwhole (hfree 0) rfl (by decide) (goes_end (by decide)))
  · next hr => exact hlast hr (by decide) settles_ofReturn
  · next hr =>
    refine .of_rule hr ((goes_child hwhole (hfree 0) (by decide) hc.block).bind fun _ => ?_)
    exact goes_end (by decide)
  · next hr => exact hlast hr (by decide) settles_ofCall
  · next hr => exact hlast hr (by decide) settles_ofAssign
  · exact goes_unexpected hasks (by simp_all)

theorem Settled.conditional_step (ht : t.rule? = some .ifStmt) : t.Raises.Settles (ofIf t) := by
  rw [ofIf]
  refine settles_plain ht (by decide) fun F hwhole hfree => ?_
  refine (goes_expect (by decide)).bind fun e => ?_
  refine (goes_child hwhole (hfree 0) (by decide) Expr.settles_ofTree).bind fun x => ?_
  refine (goes_expect (by decide)).bind fun a => ?_
  have ha := (ih a.tree a.sizeOf_lt).statement
  refine (goes_child hwhole (hfree 1) (by decide) ha).bind fun y => ?_
  refine goes_optional (fun b => ?_) (goes_end (by decide))
  have hb := (ih b.tree b.sizeOf_lt).statement
  exact (goes_child hwhole (hfree 2) (by decide) hb).bind fun z => goes_end (by decide)

theorem Settled.forLoop_step (ht : t.rule? = some .forStmt) : t.Raises.Settles (ofFor t) := by
  rw [ofFor]
  refine settles_plain ht (by decide) fun F hwhole hfree => ?_
  refine (goes_expect (by decide)).bind fun a => ?_
  refine (goes_child hwhole (hfree 0) (by decide) Assign.settles_ofTree).bind fun i => ?_
  refine (goes_expect (by decide)).bind fun c => ?_
  refine (goes_child hwhole (hfree 1) (by decide) Expr.settles_ofTree).bind fun x => ?_
  refine (goes_expect (by decide)).bind fun u => ?_
  refine (goes_child hwhole (hfree 2) (by decide) Expr.settles_ofTree).bind fun y => ?_
  refine (goes_expect (by decide)).bind fun b => ?_
  have hb := (ih b.tree b.sizeOf_lt).statement
  exact (goes_child hwhole (hfree 3) (by decide) hb).bind fun z => goes_end (by decide)

theorem Settled.whileLoop_step (ht : t.rule? = some .whileStmt) :
    t.Raises.Settles (ofWhile t) := by
  rw [ofWhile]
  refine settles_plain ht (by decide) fun F hwhole hfree => ?_
  refine (goes_expect (by decide)).bind fun c => ?_
  refine (goes_child hwhole (hfree 0) (by decide) Expr.settles_ofTree).bind fun x => ?_
  refine (goes_expect (by decide)).bind fun b => ?_
  have hb := (ih b.tree b.sizeOf_lt).statement
  exact (goes_child hwhole (hfree 1) (by decide) hb).bind fun z => goes_end (by decide)

theorem Settled.doLoop_step (ht : t.rule? = some .doWhileStmt) : t.Raises.Settles (ofDo t) := by
  rw [ofDo]
  refine settles_plain ht (by decide) fun F hwhole hfree => ?_
  refine (goes_expect (by decide)).bind fun b => ?_
  have hb := (ih b.tree b.sizeOf_lt).block
  refine (goes_child hwhole (hfree 0) (by decide) hb).bind fun ss => ?_
  refine (goes_expect (by decide)).bind fun c => ?_
  refine (goes_child hwhole (hfree 1) (by decide) Expr.settles_ofTree).bind fun x => ?_
  exact goes_end (by decide)

/-- The items of a block. -/
theorem Settled.leads_items {F : Frame t} {i : Nat} {S : List Peg} {cs : List t.Child}
    (hwhole : F.Whole) (hfree : ∀ i, F.Free i) (hS : BlockAsks S) (h : F.At i S [] cs) :
    F.faults.Leads (cs.mapM fun c =>
      match c.rule with
      | .varDecl => do return (← VarDecl.ofGroup c.tree).map .declare
      | .statement => do return [← ofTree c.tree]
      | r => .error (.shape t (.unexpected .blockItem r))) fun _ => F.faults.None := by
  induction cs generalizing i S with
  | nil =>
    have hend := List.getElem?_eq_none_iff.mp h.head
    exact .of_ok (h.toUpto.none hend (bare_of_closes hS.closes))
  | cons c cs ihc =>
    have hitem : F.faults.Leads (match c.rule with
        | .varDecl => do return (← VarDecl.ofGroup c.tree).map .declare
        | .statement => do return [← ofTree c.tree]
        | r => .error (.shape t (.unexpected .blockItem r)))
        fun _ => F.At (i + 1) (Peg.advance [Rule.block.demand] .varDecl) [] cs := by
      split
      · next hr =>
        have hgroup := h.leads_child hwhole (hfree i) hr hS.goesGroup VarDecl.settles_ofGroup
        exact hgroup.bind fun _ hat => .of_ok (hS.group ▸ hat)
      · next hr =>
        have hstatement := h.leads_child hwhole (hfree i) hr hS.goesStatement
          (ih c.tree c.sizeOf_lt).statement
        exact hstatement.bind fun _ hat => .of_ok (hS.statement ▸ hat)
      · exact .of_error (h.isFirst_cons (advance_of_closes hS.closes (by simp_all)) rfl)
    rw [List.mapM_cons]
    exact hitem.bind fun _ hat => (ihc blockAsks_after hat).bind fun _ hnone => .of_ok hnone

theorem Settled.block_step (ht : t.rule? = some .block) : t.Raises.Settles (ofBlock t) := by
  have hr : Rule.block.demand.isSyntax = true := by decide
  have hwhole : (t.frame .block hr).Whole := examined_of_isWhole ht rfl
  rw [ofBlock, ← faults_frame ht hr (isSigned_of_rule ht (by decide))]
  have hitems := Settled.leads_items ih hwhole (free_of_special rfl ht rfl) blockAsks_start
    (.zero (congrArg (·[0]?) hwhole))
  exact hitems.bind fun _ hnone => .of_ok hnone

theorem Settled.step : Settled t where
  statement := Settled.statement_step ih
  conditional := Settled.conditional_step ih
  forLoop := Settled.forLoop_step ih
  whileLoop := Settled.whileLoop_step ih
  doLoop := Settled.doLoop_step ih
  block := Settled.block_step ih

end Step

theorem settled (t : Tree) : Settled t :=
  Settled.step fun u _ => settled u
termination_by sizeOf t

end Stmt

/-! ### Declarations -/

section Rest

variable {F : Frame t} {i : Nat} {S : List Peg} {X : List Rule}

theorem Param.goes_rest {out inherit : Bool} (hwhole : F.Whole) (hfree : ∀ i, F.Free i)
    (hname : (asks S X [.identifier] && goesOn S .identifier) = true)
    (hty : (asks (Peg.advance S .identifier) [] [.varType] &&
      goesOn (Peg.advance S .identifier) .varType) = true)
    (hend : closes (Peg.advance (Peg.advance S .identifier) .varType) [] = true) :
    F.Goes (F.At i S X) (do
      let name ← expect .identifier
      let ty ← Ty.ofVarType (← expect .varType).tree
      return ⟨name.tree.string, ty, out, inherit⟩ : Visit t Param) fun _ => F.Ended := by
  obtain ⟨hname, hgo⟩ := Bool.and_eq_true_iff.mp hname
  obtain ⟨hty, hgo'⟩ := Bool.and_eq_true_iff.mp hty
  refine (goes_expect hname).bind fun n => .take hwhole (hfree _) rfl hgo ?_
  refine (goes_expect hty).bind fun ty => ?_
  exact (goes_child hwhole (hfree _) hgo' Ty.settles_ofVarType).bind fun _ => goes_end hend

theorem FuncDecl.goes_rest {name : String} {ty : Ty} {params : List Param} (hwhole : F.Whole)
    (hfree : ∀ i, F.Free i)
    (hparent : (goesOn S .identifier && asks (Peg.advance S .identifier) [] [.block] &&
      goesOn (Peg.advance S .identifier) .block &&
      closes (Peg.advance (Peg.advance S .identifier) .block) []) = true)
    (hblock : (asks S (.identifier :: X) [.block] && goesOn S .block &&
      closes (Peg.advance S .block) []) = true) :
    F.Goes (F.At i S X) (do
      let parent ← optional .identifier
      let body ← Stmt.ofBlock (← expect .block).tree
      return ⟨name, ty, params, parent.map (·.tree.string), body⟩ : Visit t FuncDecl)
      fun _ => F.Ended := by
  simp only [Bool.and_eq_true] at hparent hblock
  obtain ⟨⟨⟨hgo, hasks⟩, hgo'⟩, hend⟩ := hparent
  obtain ⟨⟨hasks', hgo''⟩, hend'⟩ := hblock
  refine goes_optional (fun p => .take hwhole (hfree _) rfl hgo ?_) ?_
  · refine (goes_expect hasks).bind fun b => ?_
    exact (goes_child hwhole (hfree _) hgo' (Stmt.settled _).block).bind fun _ => goes_end hend
  · refine (goes_expect hasks').bind fun b => ?_
    exact (goes_child hwhole (hfree _) hgo'' (Stmt.settled _).block).bind fun _ => goes_end hend'

end Rest

theorem Param.settles_ofTree (ht : t.rule? = some .paramDecl) : t.Raises.Settles (ofTree t) := by
  refine settles_plain ht (by decide) fun F hwhole hfree => ?_
  refine goes_flag (fun _ => .take hwhole (hfree _) rfl (by decide) ?_) ?_
  · refine goes_flag (fun _ => .take hwhole (hfree _) rfl (by decide) ?_) ?_
    · exact goes_rest hwhole hfree (by decide) (by decide) (by decide)
    · exact goes_rest hwhole hfree (by decide) (by decide) (by decide)
  · refine goes_flag (fun _ => .take hwhole (hfree _) rfl (by decide) ?_) ?_
    · exact goes_rest hwhole hfree (by decide) (by decide) (by decide)
    · exact goes_rest hwhole hfree (by decide) (by decide) (by decide)

theorem Param.settles_listOfTree (ht : t.rule? = some .paramList) :
    t.Raises.Settles (listOfTree t) := by
  refine settles_plain ht (by decide) fun F hwhole hfree => ?_
  exact goes_items hwhole hfree (by decide) rfl (by decide) fun c => Param.settles_ofTree

theorem FuncDecl.settles_ofTree (ht : t.rule? = some .funcDecl) : t.Raises.Settles (ofTree t) := by
  refine settles_plain ht (by decide) fun F hwhole hfree => ?_
  refine (goes_expect (by decide)).bind fun n => .take hwhole (hfree _) rfl (by decide) ?_
  refine (goes_expect (by decide)).bind fun ty => ?_
  refine (goes_child hwhole (hfree _) (by decide) Ty.settles_ofFuncType).bind fun τ => ?_
  refine goes_optional (fun l => ?_) ?_
  · refine (goes_child hwhole (hfree _) (by decide) Param.settles_listOfTree).bind fun ps => ?_
    exact goes_rest hwhole hfree (by decide) (by decide)
  · exact goes_rest hwhole hfree (by decide) (by decide)

theorem Decl.settles_ofTree (ht : t.rule? = some .declaration) : t.Raises.Settles (ofTree t) := by
  refine settles_plain ht (by decide) fun F hwhole hfree => ?_
  have hasks : asks [Rule.declaration.demand] [] [.funcDecl, .varDecl] = true := by decide
  refine (goes_next hasks).bind fun c => ?_
  split
  · next hr =>
    refine .of_rule hr ((goes_child hwhole (hfree 0) (by decide) FuncDecl.settles_ofTree).bind fun _ => ?_)
    exact goes_end (by decide)
  · next hr =>
    refine .of_rule hr ((goes_child hwhole (hfree 0) (by decide) VarDecl.settles_ofGroup).bind fun _ => ?_)
    exact goes_end (by decide)
  · exact goes_unexpected hasks (by simp_all)

/-! ### Programs -/

namespace Tree

/-- What the root asks of its children. -/
def rootFrame (t : Tree) : Frame t where
  nodes := t.children
  demand := .topLevel
  special _ _ := False
  delay := 0
  isNode _ := isNode_of_mem_children
  isSyntax := rfl
  special_late _ _ h := h.elim

/-- A fault of a tree that a program is to be made of. -/
def Fails (t : Tree) : Faults := fun q f => t.Misplaced q f ∨ t.Mistaken q f

variable {c : Tree} {q : List Nat} {f : Fault}

theorem raises_iff : c.Raises q f ↔ Along Misplaces c q f ∨ Along Errs c q f := by
  constructor
  · intro h
    induction h with
    | self h => exact h.imp .self .self
    | child hc _ ih => exact ih.imp (.child hc) (.child hc)
  · rintro (h | h)
    · induction h with
      | self h => exact .self (.inl h)
      | child hc _ ih => exact .child hc ih
    · induction h with
      | self h => exact .self (.inr h)
      | child hc _ ih => exact .child hc ih

theorem faults_rootFrame (t : Tree) : t.rootFrame.faults = t.Fails := by
  funext q f
  refine propext ⟨?_, ?_⟩
  · rintro ((⟨k, hstrays, rfl⟩ | hf) | ⟨i, c, p, hc, h, rfl⟩)
    · exact .inl (.root hstrays)
    · exact hf.elim
    · exact (raises_iff.mp h).imp (.below hc) (.below hc)
  · rintro (h | h)
    · cases h with
      | root hstrays => exact .inl (.inl ⟨_, hstrays, rfl⟩)
      | below hd h => exact .inr ⟨_, _, _, hd, raises_iff.mpr (.inl h), rfl⟩
    · cases h with
      | below hd h => exact .inr ⟨_, _, _, hd, raises_iff.mpr (.inr h), rfl⟩

end Tree

/-- **The first fault is reported.**  A program is made of a tree exactly if nothing is at fault in it,
and otherwise the fault is one that no other comes before. -/
theorem Program.settles_ofTree (t : Tree) : t.Fails.Settles (ofTree t) := by
  rw [← faults_rootFrame]
  have hwhole : t.rootFrame.Whole := rfl
  have hfree : ∀ i, t.rootFrame.Free i := fun _ _ _ h => h
  refine Frame.settles_visit (P := t.rootFrame.At 0 [.topLevel] []) (Goes.finish ?_) (.zero rfl)
  refine goes_many.bind fun cs => ?_
  refine (goes_mapM hwhole hfree (by decide) rfl fun c => Decl.settles_ofTree).bind fun dss => ?_
  have hend : ∀ j, t.rootFrame.Goes (t.rootFrame.At j [.topLevel] [.declaration]) (do
      let _ ← expect .eoi
      return ⟨dss.flatten⟩ : Visit t Program) fun _ => t.rootFrame.Ended := fun j =>
    (goes_expect (by decide)).bind fun _ => .take hwhole (hfree j) rfl (by decide) (goes_end (by decide))
  rintro cs ⟨j, hj⟩
  exact hend j cs (or_self_iff.mp hj)

end Mt22
