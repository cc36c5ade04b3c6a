import Mt22.Proofs.Program.OfDecl
import Mt22.Proofs.Token.Value
import Mt22.Proofs.Tree.Shapes

/-!
# What can go wrong with a conforming tree

A conforming tree has the shape that the making of a program relies on.  So no fault of shape is
ever met, and a program is made unless the tree holds one of three faults of value, which can be
told from the tree alone:

* an integer literal of `2 ^ 63` or more,
* an array dimension of `2 ^ 64` or more,
* a variable group with another number of initializers than of names.

They are met in a fixed order, that of `Tree.faults`: a node after its children, and the children from
the left.  `Yields x fs` says that a computation fails with the first of the faults `fs`, and gives a
result if there are none.  It is shown of every rule at once, by induction on conforming trees
(`Tree.Conforms.ordered`).
-/

namespace Mt22

open Mt22.Tree Mt22.Number

/-! ### The faults of a tree -/

/-- The tree `u` is the tree `t` or a node below it. -/
inductive Tree.Within : Tree → Tree → Prop
  | self (t : Tree) : Within t t
  | child {u c t : Tree} (hc : c ∈ t.children) (hu : Within u c) : Within u t

theorem Tree.Within.trans {t u v : Tree} (huv : u.Within v) (hvt : v.Within t) : u.Within t := by
  induction hvt with
  | self => exact huv
  | child hc _ ih => exact .child hc ih

/-- The faults of value that a node has by itself, whatever is below its children. -/
inductive Tree.At : Tree → Fault → Prop
  | integer {t i : Tree} (ht : t.rule? = some .literal) (hi : i ∈ t.children)
      (hr : i.rule? = some .intLit) (hv : signedLimit ≤ i.denoted) : At t (.integerRange i)
  | dimension {t i : Tree} (ht : t.rule? = some .dimensions) (hi : i ∈ t.children)
      (hr : i.rule? = some .intLit) (hv : unsignedLimit ≤ i.denoted) : At t (.dimensionRange i)
  | count {t ns vs : Tree} (ht : t.rule? = some .varDecl) (hns : ns ∈ t.children)
      (hn : ns.rule? = some .nameList) (hvs : vs ∈ t.children) (hv : vs.rule? = some .initializers)
      (hne : vs.children.length ≠ ns.children.length) :
      At t (.initializerCount t ns.children.length vs.children.length)

/-- A fault of value of a node of the tree. -/
def Tree.Has (t : Tree) (f : Fault) : Prop := ∃ u : Tree, u.Within t ∧ u.At f

namespace Tree

/-- The faults of value that a node has by itself, in the order of its children. -/
def ownFaults (t : Tree) : List Fault :=
  match t.rule? with
  | some .literal => t.children.flatMap fun i =>
    if i.rule? = some .intLit ∧ signedLimit ≤ i.denoted then [.integerRange i] else []
  | some .dimensions => t.children.flatMap fun i =>
    if i.rule? = some .intLit ∧ unsignedLimit ≤ i.denoted then [.dimensionRange i] else []
  | some .varDecl =>
    (t.children.filter (·.rule? = some .nameList)).flatMap fun ns =>
      (t.children.filter (·.rule? = some .initializers)).flatMap fun vs =>
        if vs.children.length ≠ ns.children.length then
          [.initializerCount t ns.children.length vs.children.length]
        else []
  | _ => []

mutual

/-- The faults of value in a tree, those of a node after those of its children. -/
def faults : Tree → List Fault
  | node r a b ps => faultsAll ps ++ (node r a b ps).ownFaults
  | _ => []

/-- The faults of value in a list of trees. -/
def faultsAll : List Tree → List Fault
  | [] => []
  | t :: ts => t.faults ++ faultsAll ts

end

variable {t : Tree} {r : Rule} {f : Fault}

theorem has_iff : t.Has f ↔ t.At f ∨ ∃ c ∈ t.children, c.Has f := by
  constructor
  · rintro ⟨u, hu, hf⟩
    cases hu with
    | self => exact .inl hf
    | child hc hu => exact .inr ⟨_, hc, u, hu, hf⟩
  · rintro (hf | ⟨c, hc, u, hu, hf⟩)
    · exact ⟨t, .self t, hf⟩
    · exact ⟨u, .child hc hu, hf⟩

/-- A rule whose nodes have no fault by themselves. -/
def isInnocent (r : Rule) : Bool := r ≠ .literal && r ≠ .dimensions && r ≠ .varDecl

/-- A node without children has no fault. -/
theorem not_has_of_children (hc : t.children = []) : ¬ t.Has f := by
  rw [has_iff, hc]
  rintro (hf | ⟨c, h, -⟩)
  · cases hf with
    | integer _ h | dimension _ h => rw [hc] at h; cases h
    | count _ h => rw [hc] at h; cases h
  · cases h

/-! ### The faults in order -/

theorem mem_ownFaults : f ∈ t.ownFaults ↔ t.At f := by
  constructor
  · intro h
    unfold ownFaults at h
    split at h
    · next ht =>
      obtain ⟨i, hi, h⟩ := List.mem_flatMap.mp h
      split at h
      · next hv =>
        obtain rfl := List.mem_singleton.mp h
        exact .integer ht hi hv.1 hv.2
      · cases h
    · next ht =>
      obtain ⟨i, hi, h⟩ := List.mem_flatMap.mp h
      split at h
      · next hv =>
        obtain rfl := List.mem_singleton.mp h
        exact .dimension ht hi hv.1 hv.2
      · cases h
    · next ht =>
      obtain ⟨ns, hns, h⟩ := List.mem_flatMap.mp h
      obtain ⟨vs, hvs, h⟩ := List.mem_flatMap.mp h
      obtain ⟨hns, hn⟩ := List.mem_filter.mp hns
      obtain ⟨hvs, hv⟩ := List.mem_filter.mp hvs
      split at h
      · next hne =>
        obtain rfl := List.mem_singleton.mp h
        exact .count ht hns (of_decide_eq_true hn) hvs (of_decide_eq_true hv) hne
      · cases h
    · cases h
  · intro h
    cases h with
    | integer ht hi hr hv =>
      rw [ownFaults, ht]
      exact List.mem_flatMap.mpr ⟨_, hi, by simp [hr, hv]⟩
    | dimension ht hi hr hv =>
      rw [ownFaults, ht]
      exact List.mem_flatMap.mpr ⟨_, hi, by simp [hr, hv]⟩
    | @count ns vs ht hns hn hvs hv hne =>
      rw [ownFaults, ht]
      exact List.mem_flatMap.mpr ⟨ns, List.mem_filter.mpr ⟨hns, decide_eq_true hn⟩,
        List.mem_flatMap.mpr ⟨vs, List.mem_filter.mpr ⟨hvs, decide_eq_true hv⟩, by simp [hne]⟩⟩

theorem faultsAll_eq (ts : List Tree) : faultsAll ts = (nodes ts).flatMap faults := by
  induction ts with
  | nil => rfl
  | cons t ts ih =>
    cases t with
    | token | trivia => exact ih
    | node r a b ps =>
      rw [faultsAll, ih]
      rfl

theorem faults_eq (t : Tree) : t.faults = t.children.flatMap faults ++ t.ownFaults := by
  cases t with
  | token | trivia => rfl
  | node r a b ps => rw [faults, faultsAll_eq, children, parts]

mutual

/-- The list holds the faults of the tree. -/
theorem mem_faults : ∀ t : Tree, f ∈ t.faults ↔ t.Has f
  | token _ | trivia _ => iff_of_false List.not_mem_nil (not_has_of_children rfl)
  | node r a b ps => by
    rw [faults, List.mem_append, mem_faultsAll ps, mem_ownFaults, has_iff, or_comm]
    rfl

theorem mem_faultsAll : ∀ ts : List Tree, f ∈ faultsAll ts ↔ ∃ c ∈ nodes ts, c.Has f
  | [] => by simp [faultsAll]
  | t :: ts => by
    rw [faultsAll, List.mem_append, mem_faults t, mem_faultsAll ts]
    cases t with
    | token s => exact or_iff_right (not_has_of_children rfl)
    | trivia s => exact or_iff_right (not_has_of_children rfl)
    | node r a b ps =>
      exact (List.exists_mem_cons_iff (fun c => c.Has f) (node r a b ps) (nodes ts)).symm

end

theorem ownFaults_of_isInnocent (ht : t.rule? = some r) (hr : isInnocent r = true) :
    t.ownFaults = [] := by
  rw [ownFaults, ht]
  split
  · next h => cases h; cases hr
  · next h => cases h; cases hr
  · next h => cases h; cases hr
  · rfl

theorem faults_nil_of_children (hc : t.children = []) : t.faults = [] :=
  List.eq_nil_iff_forall_not_mem.mpr fun _ hf => not_has_of_children hc ((mem_faults t).mp hf)

theorem Is.faults_nil (h : Is r t) (hr : isLeaf r = true) : t.faults = [] :=
  faults_nil_of_children (h.children_nil hr)

theorem Is.faults_literal (h : Is .literal t) : t.faults = t.children.flatMap fun i =>
    i.faults ++ if i.rule? = some .intLit ∧ signedLimit ≤ i.denoted then [.integerRange i] else [] := by
  obtain ⟨-, -, v, hc, -⟩ :=
    h.shape_one [.floatLit, .intLit, .strLit, .boolLit] (by decide) rfl rfl
  rw [faults_eq, ownFaults, h.rule, hc]
  simp only [List.flatMap_cons, List.flatMap_nil, List.append_nil]

theorem Is.faults_dimensions (h : Is .dimensions t) : t.faults = t.children.flatMap fun i =>
    if i.rule? = some .intLit ∧ unsignedLimit ≤ i.denoted then [.dimensionRange i] else [] := by
  obtain ⟨-, hall⟩ := h.commaList .intLit (by decide) rfl
  have hleaf : t.children.flatMap faults = [] :=
    List.flatMap_eq_nil_iff.mpr fun d hd => (hall d hd).faults_nil rfl
  rw [faults_eq, hleaf, ownFaults, h.rule, List.nil_append]

/-- A variable group without values has no fault by itself. -/
theorem Is.ownFaults_two {ns ty : Tree} (h : Is .varDecl t) (hc : t.children = [ns, ty])
    (hns : Is .nameList ns) (hty : Is .varType ty) : t.ownFaults = [] := by
  rw [ownFaults, h.rule, hc]
  simp [hns.rule, hty.rule]

/-- A variable group with values has a fault by itself exactly if their number is wrong. -/
theorem Is.ownFaults_three {ns ty vs : Tree} (h : Is .varDecl t) (hc : t.children = [ns, ty, vs])
    (hns : Is .nameList ns) (hty : Is .varType ty) (hvs : Is .initializers vs) :
    t.ownFaults = if vs.children.length ≠ ns.children.length then
      [.initializerCount t ns.children.length vs.children.length] else [] := by
  rw [ownFaults, h.rule, hc]
  simp [hns.rule, hty.rule, hvs.rule]

/-- The two forms of a variable group. -/
theorem Is.varDecl_children (h : Is .varDecl t) :
    (∃ ns ty, t.children = [ns, ty] ∧ Is .nameList ns ∧ Is .varType ty) ∨
      ∃ ns ty vs, t.children = [ns, ty, vs] ∧ Is .nameList ns ∧ Is .varType ty ∧
        Is .initializers vs := by
  obtain ⟨rs, hrs, hcs⟩ := h.shape (by decide) rfl
  have hrs : rs ∈ [[Rule.nameList, .varType], [.nameList, .varType, .initializers]] := hrs
  simp only [List.mem_cons, List.not_mem_nil, or_false] at hrs
  rcases hrs with rfl | rfl
  · exact .inl (forall₂_two hcs)
  · exact .inr (forall₂_three hcs)

/-- A variable group with values has its names first and its values last. -/
theorem Is.varDecl_three {ns vs : Tree} (h : Is .varDecl t) (hns : ns ∈ t.children)
    (hn : ns.rule? = some .nameList) (hvs : vs ∈ t.children) (hv : vs.rule? = some .initializers) :
    ∃ ty, t.children = [ns, ty, vs] := by
  rcases h.varDecl_children with ⟨ns', ty, hc, hns', hty⟩ | ⟨ns', ty, vs', hc, hns', hty, hvs'⟩
  · rw [hc, List.mem_cons, List.mem_singleton] at hvs
    rcases hvs with rfl | rfl
    · cases hv.symm.trans hns'.rule
    · cases hv.symm.trans hty.rule
  · rw [hc, List.mem_cons, List.mem_cons, List.mem_singleton] at hns hvs
    have hnames : ns = ns' := by
      rcases hns with rfl | rfl | rfl
      · rfl
      · cases hn.symm.trans hty.rule
      · cases hn.symm.trans hvs'.rule
    have hvalues : vs = vs' := by
      rcases hvs with rfl | rfl | rfl
      · cases hv.symm.trans hns'.rule
      · cases hv.symm.trans hty.rule
      · rfl
    exact ⟨ty, by rw [hc, hnames, hvalues]⟩

/-- The last item of a variable group is its semicolon. -/
theorem Is.varDecl_solid (h : Is .varDecl t) : ∃ xs, solid t.parts = xs ++ [.token [';']] := by
  obtain ⟨ts₁, us₁, heq, -, hf⟩ := Peg.Fits.seq_iff.mp (h.fits (by decide)).1
  obtain ⟨ts₂, us₂, rfl, -, hf⟩ := Peg.Fits.seq_iff.mp hf
  obtain ⟨ts₃, us₃, rfl, -, hf⟩ := Peg.Fits.seq_iff.mp hf
  obtain ⟨ts₄, us₄, rfl, -, hf⟩ := Peg.Fits.seq_iff.mp hf
  obtain rfl := Peg.Fits.text_iff.mp hf
  exact ⟨ts₁ ++ (ts₂ ++ (ts₃ ++ ts₄)), by rw [heq]; simp only [List.append_assoc]; rfl⟩

end Tree

/-! ### Computations that fail with the first fault -/

/-- The computation fails with the first of the faults, and gives a result if there are none. -/
def Yields {α : Type} (x : Except Fault α) (fs : List Fault) : Prop :=
  match x with
  | .ok _ => fs = []
  | .error f => fs.head? = some f

namespace Yields

variable {α β : Type} {x : Except Fault α} {fs gs : List Fault}

theorem ok (a : α) : Yields (.ok a) [] := rfl

theorem of_eq (h : Yields x fs) (heq : fs = gs) : Yields x gs := heq ▸ h

theorem bind {g : α → Except Fault β} (h : Yields x fs) (hg : ∀ a, x = .ok a → Yields (g a) gs) :
    Yields (x >>= g) (fs ++ gs) := by
  cases x with
  | error f =>
    have h : fs.head? = some f := h
    show (fs ++ gs).head? = some f
    rw [List.head?_append, h]
    rfl
  | ok a =>
    obtain rfl : fs = [] := h
    exact hg a rfl

theorem fmap {g : α → β} (h : Yields x fs) : Yields (g <$> x) fs := by
  cases x with
  | error f => exact h
  | ok a => exact h

theorem mapM {g : α → Except Fault β} {as : List α} {F : α → List Fault}
    (h : ∀ a ∈ as, Yields (g a) (F a)) : Yields (as.mapM g) (as.flatMap F) := by
  induction as with
  | nil => exact ok []
  | cons a as ih =>
    rw [List.mapM_cons]
    have htail := ih fun b hb => h b (List.mem_cons_of_mem a hb)
    refine ((h a List.mem_cons_self).bind fun b _ => htail.bind fun bs _ => ok (b :: bs)).of_eq ?_
    rw [List.append_nil, List.flatMap_cons]

end Yields

/-- The computation fails exactly if one of the faults is there, and then with one of them. -/
def Blames {α : Type} (x : Except Fault α) (H : Fault → Prop) : Prop :=
  match x with
  | .ok _ => ∀ f, ¬ H f
  | .error f => H f

/-- A computation that fails if and only if something is there to blame. -/
theorem Blames.isOk_iff {α : Type} {x : Except Fault α} {H : Fault → Prop} (h : Blames x H) :
    (∃ a, x = .ok a) ↔ ∀ f, ¬ H f := by
  cases x with
  | ok a => exact ⟨fun _ => h, fun _ => ⟨a, rfl⟩⟩
  | error f => exact ⟨fun ⟨a, ha⟩ => (by cases ha), fun hall => absurd h (hall f)⟩

theorem Yields.blames {α : Type} {x : Except Fault α} {fs : List Fault} (h : Yields x fs) :
    Blames x (· ∈ fs) := by
  cases x with
  | ok a =>
    obtain rfl : fs = [] := h
    exact fun _ => List.not_mem_nil
  | error f => exact List.mem_of_mem_head? h

/-! ### Every rule -/

/-- What is made of a node of a rule fails with the first fault in it. -/
def Settled : Rule → Tree → Prop
  | .strLit, t => Yields (Literal.string t) t.faults
  | .boolLit, t => Yields (Literal.boolean t) t.faults
  | .literal, t => Yields (Expr.ofLiteral t) t.faults
  | .primType, t => Yields (PrimTy.ofTree t) t.faults
  | .dimensions, t => Yields (t.children.mapM Literal.dimension) t.faults
  | .arrayType, t => Yields (Ty.ofArrayType t) t.faults
  | .varType, t => Yields (Ty.ofVarType t) t.faults
  | .funcType, t => Yields (Ty.ofFuncType t) t.faults
  | .expression, t => Yields (Expr.ofTree t) t.faults
  | .relational, t => Yields (Expr.ofRelational t) t.faults
  | .logical, t => Yields (Expr.ofLogical t) t.faults
  | .additive, t => Yields (Expr.ofAdditive t) t.faults
  | .multiplicative, t => Yields (Expr.ofMultiplicative t) t.faults
  | .notExpr, t => Yields (Expr.ofNot t) t.faults
  | .negExpr, t => Yields (Expr.ofNeg t) t.faults
  | .primary, t => Yields (Expr.ofPrimary t) t.faults
  | .arguments, t => Yields (Expr.ofArguments t) t.faults
  | .arrayCell, t => Yields (Expr.ofCell t) t.faults
  | .funcCall, t => Yields (Expr.ofCall t) t.faults
  | .arrayLit, t => Yields (Expr.ofArray t) t.faults
  | .lhs, t => Yields (Target.ofTree t) t.faults
  | .assign, t => Yields (Assign.ofTree t) t.faults
  | .assignStmt, t => Yields (Stmt.ofAssign t) t.faults
  | .ifStmt, t => Yields (Stmt.ofIf t) t.faults
  | .forStmt, t => Yields (Stmt.ofFor t) t.faults
  | .whileStmt, t => Yields (Stmt.ofWhile t) t.faults
  | .doWhileStmt, t => Yields (Stmt.ofDo t) t.faults
  | .returnStmt, t => Yields (Stmt.ofReturn t) t.faults
  | .callStmt, t => Yields (Stmt.ofCall t) t.faults
  | .statement, t => Yields (Stmt.ofTree t) t.faults
  | .block, t => Yields (Stmt.ofBlock t) t.faults
  | .nameList, t => Yields (VarDecl.names t) t.faults
  | .initializers, t => Yields (VarDecl.values t) t.faults
  | .varDecl, t => Yields (VarDecl.ofGroup t) t.faults
  | .paramDecl, t => Yields (Param.ofTree t) t.faults
  | .paramList, t => Yields (Param.listOfTree t) t.faults
  | .funcDecl, t => Yields (FuncDecl.ofTree t) t.faults
  | .declaration, t => Yields (Decl.ofTree t) t.faults
  | .program, t => Yields (Program.ofTree t) t.faults
  | _, _ => True

namespace Settled

variable {t : Tree}

/-- The outcome of a node that has no fault by itself is that of its children. -/
theorem of_children {α : Type} {r : Rule} {x : Except Fault α} (h : Is r t)
    (hr : isInnocent r = true) (hx : Yields x (t.children.flatMap faults)) : Yields x t.faults :=
  hx.of_eq (by rw [faults_eq, ownFaults_of_isInnocent h.rule hr, List.append_nil])

variable (ih : ∀ {r : Rule} {c : Tree}, c ∈ t.children → Is r c → Settled r c)

include ih

/-! #### Literals and types -/

omit ih in
theorem strLit (h : Is .strLit t) : Settled .strLit t := by
  obtain ⟨r', hr, b, hc, hb⟩ := h.shape_one [.strBody] (by decide) rfl rfl
  obtain rfl := List.mem_singleton.mp hr
  refine of_children h rfl ?_
  rw [Literal.string_eq hc hb.rule, hc]
  exact (Yields.ok _).of_eq (by simp [hb.faults_nil rfl])

omit ih in
theorem boolLit (h : Is .boolLit t) : Settled .boolLit t := by
  obtain ⟨r', hr, v, hc, hv⟩ := h.shape_one [.kwTrue, .kwFalse] (by decide) rfl rfl
  have hb : ∃ b : Bool, r' = if b then .kwTrue else .kwFalse := by
    rcases List.mem_cons.mp hr with rfl | hr
    · exact ⟨true, rfl⟩
    · exact ⟨false, List.mem_singleton.mp hr⟩
  obtain ⟨b, rfl⟩ := hb
  refine of_children h rfl ?_
  rw [Literal.boolean_eq hc hv.rule, hc]
  have hleaf : v.faults = [] := hv.faults_nil (by cases b <;> rfl)
  exact (Yields.ok _).of_eq (by simp [hleaf])

theorem literal (h : Is .literal t) : Settled .literal t := by
  obtain ⟨r', hr, v, hc, hv⟩ :=
    h.shape_one [.floatLit, .intLit, .strLit, .boolLit] (by decide) rfl rfl
  have hmem : v ∈ t.children := by rw [hc]; exact List.mem_singleton.mpr rfl
  have hown := h.faults_literal
  rw [hc, List.flatMap_singleton] at hown
  -- an integer is the only child with which the node has a fault by itself
  have hother : r' ≠ .intLit → v.faults = t.faults := by
    intro hne
    rw [hown, if_neg, List.append_nil]
    exact fun hi => hne (Option.some.inj (hv.rule.symm.trans hi.1))
  show Yields (Expr.ofLiteral t) t.faults
  rw [Expr.ofLiteral_eq hc hv.rule (by simpa [or_comm, or_left_comm] using hr)]
  simp only [List.mem_cons, List.not_mem_nil, or_false] at hr
  rcases hr with rfl | rfl | rfl | rfl
  · obtain ⟨x, hx⟩ := Literal.float_ok hv
    rw [hx]
    exact (Yields.ok (Expr.float x)).of_eq ((hv.faults_nil rfl).symm.trans (hother (by decide)))
  · show Yields (Expr.int <$> Literal.integer v) t.faults
    rw [Literal.integer_eq hv, hown, hv.faults_nil rfl, List.nil_append]
    by_cases hlt : v.denoted < signedLimit
    · rw [if_pos hlt, if_neg fun hi => Nat.not_le_of_lt hlt hi.2]
      exact Yields.ok (Expr.int v.denoted)
    · rw [if_neg hlt, if_pos ⟨hv.rule, Nat.le_of_not_lt hlt⟩]
      rfl
  · exact (ih hmem hv : Yields (Literal.string v) v.faults).fmap.of_eq (hother (by decide))
  · exact (ih hmem hv : Yields (Literal.boolean v) v.faults).fmap.of_eq (hother (by decide))

omit ih in
theorem primType (h : Is .primType t) : Settled .primType t := by
  obtain ⟨r', hr, k, hc, hk⟩ :=
    h.shape_one [.kwInteger, .kwFloat, .kwBoolean, .kwString] (by decide) rfl rfl
  have hp : ∃ p : PrimTy, r' = p.rule := by
    simp only [List.mem_cons, List.not_mem_nil, or_false] at hr
    rcases hr with rfl | rfl | rfl | rfl
    · exact ⟨.integer, rfl⟩
    · exact ⟨.float, rfl⟩
    · exact ⟨.boolean, rfl⟩
    · exact ⟨.string, rfl⟩
  obtain ⟨p, rfl⟩ := hp
  refine of_children h rfl ?_
  rw [PrimTy.ofTree_eq hc hk.rule, hc]
  have hleaf : k.faults = [] := hk.faults_nil (by cases p <;> rfl)
  exact (Yields.ok p).of_eq (by simp [hleaf])

omit ih in
theorem dimensions (h : Is .dimensions t) : Settled .dimensions t := by
  obtain ⟨-, hall⟩ := h.commaList .intLit (by decide) rfl
  have hone : ∀ d ∈ t.children, Yields (Literal.dimension d)
      (if d.rule? = some .intLit ∧ unsignedLimit ≤ d.denoted then [.dimensionRange d] else []) := by
    intro d hd
    rw [Literal.dimension_eq (hall d hd)]
    by_cases hlt : d.denoted < unsignedLimit
    · rw [if_pos hlt, if_neg fun hi => Nat.not_le_of_lt hlt hi.2]
      exact Yields.ok d.denoted
    · rw [if_neg hlt, if_pos ⟨(hall d hd).rule, Nat.le_of_not_lt hlt⟩]
      rfl
  exact (Yields.mapM hone).of_eq h.faults_dimensions.symm

theorem arrayType (h : Is .arrayType t) : Settled .arrayType t := by
  obtain ⟨ds, p, hc, hds, hp⟩ := h.shape_two (by decide) rfl rfl
  obtain ⟨hne, hall⟩ := hds.commaList .intLit (by decide) rfl
  have hd : Yields (ds.children.mapM Literal.dimension) ds.faults := ih (by simp [hc]) hds
  have he : Yields (PrimTy.ofTree p) p.faults := ih (by simp [hc]) hp
  refine of_children h rfl ?_
  rw [Ty.ofArrayType_eq hc hds.rule hp.rule (fun d hd => (hall d hd).rule) hne, hc]
  exact (hd.bind fun ns _ => he.bind fun e _ => .ok (Ty.array ns e)).of_eq (by simp)

theorem varType (h : Is .varType t) : Settled .varType t := by
  obtain ⟨r', hr, v, hc, hv⟩ := h.shape_one [.primType, .kwAuto, .arrayType] (by decide) rfl rfl
  have hmem : v ∈ t.children := by rw [hc]; exact List.mem_singleton.mpr rfl
  refine of_children h rfl ?_
  rw [Ty.ofVarType_eq hc hv.rule hr, hc]
  simp only [List.mem_cons, List.not_mem_nil, or_false] at hr
  rcases hr with rfl | rfl | rfl
  · exact (ih hmem hv : Yields (PrimTy.ofTree v) v.faults).fmap.of_eq (by simp)
  · exact (Yields.ok Ty.auto).of_eq (by simp [hv.faults_nil rfl])
  · exact (ih hmem hv : Yields (Ty.ofArrayType v) v.faults).of_eq (by simp)

theorem funcType (h : Is .funcType t) : Settled .funcType t := by
  obtain ⟨r', hr, v, hc, hv⟩ := h.shape_one [.kwVoid, .varType] (by decide) rfl rfl
  refine of_children h rfl ?_
  rw [hc]
  simp only [List.mem_cons, List.not_mem_nil, or_false] at hr
  rcases hr with rfl | rfl
  · rw [Ty.ofFuncType_void hc hv.rule]
    exact (Yields.ok Ty.void).of_eq (by simp [hv.faults_nil rfl])
  · rw [Ty.ofFuncType_var hc hv.rule]
    exact (ih (by simp [hc]) hv : Yields (Ty.ofVarType v) v.faults).of_eq (by simp)

/-! #### Expressions -/

/-- The two forms of a tier with at most one operator. -/
theorem pair {r operand opRule : Rule} {read : Tree → Except Fault Expr} (h : Is r t)
    (hr : isInnocent r = true) (hk : r.kind ≠ .token) (hb : r.body.isFinite = true)
    (hkids : r.body.kids = [[operand], [operand, opRule, operand]])
    (hop : opRule ∈ [.concatOp, .relOp, .logicOp, .addOp, .mulOp]) (hleaf : isLeaf opRule = true)
    (hread : ∀ c, Settled operand c → Yields (read c) c.faults) :
    Yields (Expr.ofPair t operand opRule fun c => read c.tree) t.faults := by
  obtain ⟨rs, hrs, hcs⟩ := h.shape hk hb
  refine of_children h hr ?_
  rw [hkids] at hrs
  simp only [List.mem_cons, List.not_mem_nil, or_false] at hrs
  rcases hrs with rfl | rfl
  · obtain ⟨l, hc, hl⟩ := forall₂_one hcs
    rw [Expr.ofPair_one hc hl.rule, hc]
    exact (hread l (ih (by simp [hc]) hl)).of_eq (by simp)
  · obtain ⟨l, o, m, hc, hl, ho, hm⟩ := forall₂_three hcs
    obtain ⟨op, -, hs⟩ := ho.binaryOp hop
    have hx := hread l (ih (by simp [hc]) hl)
    have hy := hread m (ih (by simp [hc]) hm)
    rw [Expr.ofPair_three hc hl.rule ho.rule hm.rule (hs ▸ op.ofSymbol?_symbol), hc]
    exact (hx.bind fun x _ => hy.bind fun y _ => .ok (Expr.binary op x y)).of_eq
      (by simp [ho.faults_nil hleaf])

/-- A tier whose operators are applied to the left. -/
theorem chain {r operand opRule : Rule} {read : Tree → Except Fault Expr} (h : Is r t)
    (hr : isInnocent r = true) (hk : r.kind ≠ .token)
    (hb : r.body = .seq (.call operand) (.star (.seq (.call opRule) (.call operand))))
    (hop : opRule ∈ [.concatOp, .relOp, .logicOp, .addOp, .mulOp]) (hleaf : isLeaf opRule = true)
    (hread : ∀ c, Settled operand c → Yields (read c) c.faults) :
    Yields (Expr.ofChain t operand opRule fun c => read c.tree) t.faults := by
  obtain ⟨l, pairs, hc, hl, hp⟩ := h.chain hk hb
  obtain ⟨ops, hops⟩ := exists_ops hop fun p hmem => (hp p hmem).1
  have hx := hread l (ih (by simp [hc]) hl)
  have hxs : ∀ d ∈ pairs.map Prod.snd, Yields (read d) d.faults := by
    intro d hd
    obtain ⟨p, hmem, rfl⟩ := List.mem_map.mp hd
    refine hread p.2 (ih ?_ (hp p hmem).2)
    rw [hc]
    exact List.mem_cons_of_mem l (List.mem_flatMap.mpr ⟨p, hmem, by simp⟩)
  refine of_children h hr ?_
  rw [Expr.ofChain_eq ⟨hc, hl.rule, fun p hmem => ⟨(hp p hmem).1.rule, (hp p hmem).2.rule⟩, hops⟩,
    hc]
  refine (hx.bind fun x _ => (Yields.mapM hxs).bind fun xs _ =>
    .ok ((ops.zip xs).foldl (fun e p => Expr.binary p.1 e p.2) x)).of_eq ?_
  -- the operators themselves have no faults
  have hno : ∀ p ∈ pairs, p.1.faults ++ p.2.faults = p.2.faults := fun p hmem => by
    rw [(hp p hmem).1.faults_nil hleaf, List.nil_append]
  simp only [List.append_nil, List.flatMap_cons, List.flatMap_map, List.flatMap_assoc,
    List.flatMap_nil, List.flatMap_congr hno]

theorem expression (h : Is .expression t) : Settled .expression t := by
  show Yields (Expr.ofTree t) t.faults
  rw [Expr.ofTree]
  exact pair ih h rfl (by decide) rfl rfl (by decide) rfl fun _ hc => hc

theorem relational (h : Is .relational t) : Settled .relational t := by
  show Yields (Expr.ofRelational t) t.faults
  rw [Expr.ofRelational]
  exact pair ih h rfl (by decide) rfl rfl (by decide) rfl fun _ hc => hc

theorem logical (h : Is .logical t) : Settled .logical t := by
  show Yields (Expr.ofLogical t) t.faults
  rw [Expr.ofLogical]
  exact chain ih h rfl (by decide) rfl (by decide) rfl fun _ hc => hc

theorem additive (h : Is .additive t) : Settled .additive t := by
  show Yields (Expr.ofAdditive t) t.faults
  rw [Expr.ofAdditive]
  exact chain ih h rfl (by decide) rfl (by decide) rfl fun _ hc => hc

theorem multiplicative (h : Is .multiplicative t) : Settled .multiplicative t := by
  show Yields (Expr.ofMultiplicative t) t.faults
  rw [Expr.ofMultiplicative]
  exact chain ih h rfl (by decide) rfl (by decide) rfl fun _ hc => hc

theorem notExpr (h : Is .notExpr t) : Settled .notExpr t := by
  obtain ⟨rs, hrs, hcs⟩ := h.shape (by decide) rfl
  refine of_children h rfl ?_
  have hrs : rs ∈ [[Rule.notOp, .notExpr], [.negExpr]] := hrs
  simp only [List.mem_cons, List.not_mem_nil, or_false] at hrs
  rcases hrs with rfl | rfl
  · obtain ⟨o, d, hc, ho, hd⟩ := forall₂_two hcs
    have hs := Is.unaryOp .not ho
    have hx : Yields (Expr.ofNot d) d.faults := ih (by simp [hc]) hd
    rw [Expr.ofNot_two h.rule hc ho.rule hd.rule (hs ▸ UnaryOp.ofSymbol?_symbol .not), hc]
    exact hx.fmap.of_eq (by simp [ho.faults_nil rfl])
  · obtain ⟨d, hc, hd⟩ := forall₂_one hcs
    rw [Expr.ofNot_one hc hd.rule, hc]
    exact (ih (by simp [hc]) hd : Yields (Expr.ofNeg d) d.faults).of_eq (by simp)

theorem negExpr (h : Is .negExpr t) : Settled .negExpr t := by
  obtain ⟨rs, hrs, hcs⟩ := h.shape (by decide) rfl
  refine of_children h rfl ?_
  have hrs : rs ∈ [[Rule.negOp, .negExpr], [.primary]] := hrs
  simp only [List.mem_cons, List.not_mem_nil, or_false] at hrs
  rcases hrs with rfl | rfl
  · obtain ⟨o, d, hc, ho, hd⟩ := forall₂_two hcs
    have hs := Is.unaryOp .neg ho
    have hx : Yields (Expr.ofNeg d) d.faults := ih (by simp [hc]) hd
    rw [Expr.ofNeg_two h.rule hc ho.rule hd.rule (hs ▸ UnaryOp.ofSymbol?_symbol .neg), hc]
    exact hx.fmap.of_eq (by simp [ho.faults_nil rfl])
  · obtain ⟨d, hc, hd⟩ := forall₂_one hcs
    rw [Expr.ofNeg_one hc hd.rule, hc]
    exact (ih (by simp [hc]) hd : Yields (Expr.ofPrimary d) d.faults).of_eq (by simp)

theorem primary (h : Is .primary t) : Settled .primary t := by
  obtain ⟨r', hr, p, hc, hp⟩ :=
    h.shape_one [.literal, .arrayCell, .funcCall, .identifier, .expression, .arrayLit] (by decide)
      rfl rfl
  have hmem : p ∈ t.children := by rw [hc]; exact List.mem_singleton.mpr rfl
  refine of_children h rfl ?_
  rw [Expr.ofPrimary_eq hc hp.rule hr, hc]
  simp only [List.mem_cons, List.not_mem_nil, or_false] at hr
  rcases hr with rfl | rfl | rfl | rfl | rfl | rfl
  · exact (ih hmem hp : Yields (Expr.ofLiteral p) p.faults).of_eq (by simp)
  · exact (ih hmem hp : Yields (Expr.ofCell p) p.faults).fmap.of_eq (by simp)
  · exact (ih hmem hp : Yields (Expr.ofCall p) p.faults).fmap.of_eq (by simp)
  · exact (Yields.ok (Expr.id p.string)).of_eq (by simp [hp.faults_nil rfl])
  · exact (ih hmem hp : Yields (Expr.ofTree p) p.faults).of_eq (by simp)
  · exact (ih hmem hp : Yields (Expr.ofArray p) p.faults).fmap.of_eq (by simp)

theorem arguments (h : Is .arguments t) : Settled .arguments t := by
  obtain ⟨-, hall⟩ := h.commaList .expression (by decide) rfl
  refine of_children h rfl ?_
  rw [Expr.ofArguments_eq fun c hc => (hall c hc).rule]
  exact Yields.mapM fun c hc => (ih hc (hall c hc) : Yields (Expr.ofTree c) c.faults)

theorem arrayCell (h : Is .arrayCell t) : Settled .arrayCell t := by
  obtain ⟨n, a, hc, hn, ha⟩ := h.shape_two (by decide) rfl rfl
  obtain ⟨hne, hall⟩ := ha.commaList .expression (by decide) rfl
  have hargs : Yields (Expr.ofArguments a) a.faults := ih (by simp [hc]) ha
  refine of_children h rfl ?_
  rw [Expr.ofCell_eq hc hn.rule ha.rule, hc]
  have heq : a.faults ++ [] = [n, a].flatMap faults := by simp [hn.faults_nil rfl]
  refine (hargs.bind fun es hes => ?_).of_eq heq
  rw [Expr.ofArguments_eq fun c hc => (hall c hc).rule] at hes
  have hlen := Visit.length_of_mapM hes
  rw [if_neg]
  · exact .ok (n.string, es)
  · rw [List.isEmpty_iff_length_eq_zero, hlen, List.length_eq_zero_iff]
    exact hne

/-- Arguments that may be missing. -/
theorem argumentsOf {a : Option Tree} (hmem : ∀ x ∈ a, x ∈ t.children)
    (ha : ∀ x ∈ a, Is .arguments x) :
    Yields (Expr.argumentsOf a) (a.toList.flatMap faults) := by
  cases a with
  | none => exact Yields.ok []
  | some a =>
    exact (ih (hmem a rfl) (ha a rfl) : Yields (Expr.ofArguments a) a.faults).of_eq (by simp)

theorem funcCall (h : Is .funcCall t) : Settled .funcCall t := by
  have hform : ∃ n a, t.children = n :: Option.toList a ∧ Is .identifier n ∧
      ∀ x ∈ a, Is .arguments x := by
    obtain ⟨rs, hrs, hcs⟩ := h.shape (by decide) rfl
    have hrs : rs ∈ [[Rule.identifier], [.identifier, .arguments]] := hrs
    simp only [List.mem_cons, List.not_mem_nil, or_false] at hrs
    rcases hrs with rfl | rfl
    · obtain ⟨n, hc, hn⟩ := forall₂_one hcs
      exact ⟨n, none, hc, hn, by simp⟩
    · obtain ⟨n, a, hc, hn, ha⟩ := forall₂_two hcs
      exact ⟨n, some a, hc, hn, by simpa using ha⟩
  obtain ⟨n, a, hc, hn, ha⟩ := hform
  refine of_children h rfl ?_
  rw [Expr.ofCall_eq hc hn.rule fun x hx => (ha x hx).rule]
  refine (argumentsOf ih (fun x hx => by simp [hc, Option.mem_def.mp hx]) ha).fmap.of_eq ?_
  rw [hc, List.flatMap_cons, hn.faults_nil rfl, List.nil_append]

theorem arrayLit (h : Is .arrayLit t) : Settled .arrayLit t := by
  have hform : ∃ a, t.children = Option.toList a ∧ ∀ x ∈ a, Is .arguments x := by
    obtain ⟨rs, hrs, hcs⟩ := h.shape (by decide) rfl
    have hrs : rs ∈ [[], [Rule.arguments]] := hrs
    simp only [List.mem_cons, List.not_mem_nil, or_false] at hrs
    rcases hrs with rfl | rfl
    · exact ⟨none, List.forall₂_nil_left_iff.mp hcs, by simp⟩
    · obtain ⟨a, hc, ha⟩ := forall₂_one hcs
      exact ⟨some a, hc, by simpa using ha⟩
  obtain ⟨a, hc, ha⟩ := hform
  refine of_children h rfl ?_
  rw [Expr.ofArray_eq hc fun x hx => (ha x hx).rule]
  refine (argumentsOf ih (fun x hx => by simp [hc, Option.mem_def.mp hx]) ha).of_eq ?_
  rw [hc]

/-! #### Statements -/

theorem lhs (h : Is .lhs t) : Settled .lhs t := by
  obtain ⟨r', hr, l, hc, hl⟩ := h.shape_one [.arrayCell, .identifier] (by decide) rfl rfl
  refine of_children h rfl ?_
  rw [Target.ofTree_eq hc hl.rule (by simpa [or_comm, or_left_comm] using hr), hc]
  simp only [List.mem_cons, List.not_mem_nil, or_false] at hr
  rcases hr with rfl | rfl
  · exact (ih (by simp [hc]) hl : Yields (Expr.ofCell l) l.faults).fmap.of_eq (by simp)
  · exact (Yields.ok (Target.id l.string)).of_eq (by simp [hl.faults_nil rfl])

theorem assign (h : Is .assign t) : Settled .assign t := by
  obtain ⟨l, e, hc, hl, he⟩ := h.shape_two (by decide) rfl rfl
  have hx : Yields (Target.ofTree l) l.faults := ih (by simp [hc]) hl
  have hy : Yields (Expr.ofTree e) e.faults := ih (by simp [hc]) he
  refine of_children h rfl ?_
  rw [Assign.ofTree_eq hc hl.rule he.rule, hc]
  exact (hx.bind fun x _ => hy.bind fun y _ => .ok (Assign.mk x y)).of_eq (by simp)

theorem assignStmt (h : Is .assignStmt t) : Settled .assignStmt t := by
  obtain ⟨r', hr, a, hc, ha⟩ := h.shape_one [.assign] (by decide) rfl rfl
  obtain rfl := List.mem_singleton.mp hr
  refine of_children h rfl ?_
  rw [Stmt.ofAssign_eq hc ha.rule, hc]
  exact (ih (by simp [hc]) ha : Yields (Assign.ofTree a) a.faults).fmap.of_eq (by simp)

theorem callStmt (h : Is .callStmt t) : Settled .callStmt t := by
  obtain ⟨r', hr, c, hc, hcall⟩ := h.shape_one [.funcCall] (by decide) rfl rfl
  obtain rfl := List.mem_singleton.mp hr
  refine of_children h rfl ?_
  rw [Stmt.ofCall_eq hc hcall.rule, hc]
  exact (ih (by simp [hc]) hcall : Yields (Expr.ofCall c) c.faults).fmap.of_eq (by simp)

theorem returnStmt (h : Is .returnStmt t) : Settled .returnStmt t := by
  obtain ⟨rs, hrs, hcs⟩ := h.shape (by decide) rfl
  refine of_children h rfl ?_
  have hrs : rs ∈ [[], [Rule.expression]] := hrs
  simp only [List.mem_cons, List.not_mem_nil, or_false] at hrs
  rcases hrs with rfl | rfl
  · have hc := List.forall₂_nil_left_iff.mp hcs
    rw [Stmt.ofReturn_none hc, hc]
    exact (Yields.ok _).of_eq (by simp)
  · obtain ⟨e, hc, he⟩ := forall₂_one hcs
    rw [Stmt.ofReturn_some hc he.rule, hc]
    exact (ih (by simp [hc]) he : Yields (Expr.ofTree e) e.faults).fmap.of_eq (by simp)

theorem ifStmt (h : Is .ifStmt t) : Settled .ifStmt t := by
  obtain ⟨rs, hrs, hcs⟩ := h.shape (by decide) rfl
  refine of_children h rfl ?_
  have hrs : rs ∈ [[Rule.expression, .statement], [.expression, .statement, .statement]] := hrs
  simp only [List.mem_cons, List.not_mem_nil, or_false] at hrs
  rcases hrs with rfl | rfl
  · obtain ⟨e, a, hc, he, ha⟩ := forall₂_two hcs
    have hx : Yields (Expr.ofTree e) e.faults := ih (by simp [hc]) he
    have hy : Yields (Stmt.ofTree a) a.faults := ih (by simp [hc]) ha
    rw [Stmt.ofIf_two hc he.rule ha.rule, hc]
    exact (hx.bind fun x _ => hy.bind fun y _ => .ok (Stmt.ifThen x y)).of_eq (by simp)
  · obtain ⟨e, a, b, hc, he, ha, hb⟩ := forall₂_three hcs
    have hx : Yields (Expr.ofTree e) e.faults := ih (by simp [hc]) he
    have hy : Yields (Stmt.ofTree a) a.faults := ih (by simp [hc]) ha
    have hz : Yields (Stmt.ofTree b) b.faults := ih (by simp [hc]) hb
    rw [Stmt.ofIf_three hc he.rule ha.rule hb.rule, hc]
    exact (hx.bind fun x _ => hy.bind fun y _ => hz.bind fun z _ =>
      .ok (Stmt.ifElse x y z)).of_eq (by simp)

theorem forStmt (h : Is .forStmt t) : Settled .forStmt t := by
  obtain ⟨rs, hrs, hcs⟩ := h.shape (by decide) rfl
  obtain rfl : rs = [.assign, .expression, .expression, .statement] := List.mem_singleton.mp hrs
  obtain ⟨a, e, u, b, hc, ha, he, hu, hb⟩ := forall₂_four hcs
  have hw : Yields (Assign.ofTree a) a.faults := ih (by simp [hc]) ha
  have hx : Yields (Expr.ofTree e) e.faults := ih (by simp [hc]) he
  have hy : Yields (Expr.ofTree u) u.faults := ih (by simp [hc]) hu
  have hz : Yields (Stmt.ofTree b) b.faults := ih (by simp [hc]) hb
  refine of_children h rfl ?_
  rw [Stmt.ofFor_eq hc ha.rule he.rule hu.rule hb.rule, hc]
  exact (hw.bind fun w _ => hx.bind fun x _ => hy.bind fun y _ => hz.bind fun z _ =>
    .ok (Stmt.forLoop w x y z)).of_eq (by simp)

theorem whileStmt (h : Is .whileStmt t) : Settled .whileStmt t := by
  obtain ⟨e, b, hc, he, hb⟩ := h.shape_two (by decide) rfl rfl
  have hx : Yields (Expr.ofTree e) e.faults := ih (by simp [hc]) he
  have hy : Yields (Stmt.ofTree b) b.faults := ih (by simp [hc]) hb
  refine of_children h rfl ?_
  rw [Stmt.ofWhile_eq hc he.rule hb.rule, hc]
  exact (hx.bind fun x _ => hy.bind fun y _ => .ok (Stmt.whileLoop x y)).of_eq (by simp)

theorem doWhileStmt (h : Is .doWhileStmt t) : Settled .doWhileStmt t := by
  obtain ⟨b, e, hc, hb, he⟩ := h.shape_two (by decide) rfl rfl
  have hx : Yields (Stmt.ofBlock b) b.faults := ih (by simp [hc]) hb
  have hy : Yields (Expr.ofTree e) e.faults := ih (by simp [hc]) he
  refine of_children h rfl ?_
  rw [Stmt.ofDo_eq hc hb.rule he.rule, hc]
  exact (hx.bind fun x _ => hy.bind fun y _ => .ok (Stmt.doLoop x y)).of_eq (by simp)

theorem statement (h : Is .statement t) : Settled .statement t := by
  obtain ⟨r', hr, s, hc, hs⟩ :=
    h.shape_one [.ifStmt, .forStmt, .whileStmt, .doWhileStmt, .breakStmt, .continueStmt, .returnStmt,
      .block, .callStmt, .assignStmt] (by decide) rfl rfl
  have hmem : s ∈ t.children := by rw [hc]; exact List.mem_singleton.mpr rfl
  refine of_children h rfl ?_
  rw [Stmt.ofTree_eq hc hs.rule hr, hc]
  simp only [List.mem_cons, List.not_mem_nil, or_false] at hr
  rcases hr with rfl | rfl | rfl | rfl | rfl | rfl | rfl | rfl | rfl | rfl
  · exact (ih hmem hs : Yields (Stmt.ofIf s) s.faults).of_eq (by simp)
  · exact (ih hmem hs : Yields (Stmt.ofFor s) s.faults).of_eq (by simp)
  · exact (ih hmem hs : Yields (Stmt.ofWhile s) s.faults).of_eq (by simp)
  · exact (ih hmem hs : Yields (Stmt.ofDo s) s.faults).of_eq (by simp)
  · exact (Yields.ok Stmt.breakLoop).of_eq (by simp [hs.faults_nil rfl])
  · exact (Yields.ok Stmt.continueLoop).of_eq (by simp [hs.faults_nil rfl])
  · exact (ih hmem hs : Yields (Stmt.ofReturn s) s.faults).of_eq (by simp)
  · exact (ih hmem hs : Yields (Stmt.ofBlock s) s.faults).fmap.of_eq (by simp)
  · exact (ih hmem hs : Yields (Stmt.ofCall s) s.faults).of_eq (by simp)
  · exact (ih hmem hs : Yields (Stmt.ofAssign s) s.faults).of_eq (by simp)

theorem block (h : Is .block t) : Settled .block t := by
  have hall := h.block
  refine of_children h rfl ?_
  rw [Stmt.ofBlock_eq fun c hc => (hall c hc).imp Is.rule Is.rule]
  refine (Yields.mapM fun c hc => ?_).fmap
  rw [Stmt.ofItem]
  rcases hall c hc with hv | hs
  · rw [if_pos hv.rule]
    exact (ih hc hv : Yields (VarDecl.ofGroup c) c.faults).fmap
  · rw [if_neg (by rw [hs.rule]; decide)]
    exact (ih hc hs : Yields (Stmt.ofTree c) c.faults).fmap

/-! #### Declarations -/

omit ih in
theorem nameList (h : Is .nameList t) : Settled .nameList t := by
  obtain ⟨-, hall⟩ := h.commaList .identifier (by decide) rfl
  show Yields (VarDecl.names t) t.faults
  refine of_children h rfl ?_
  rw [VarDecl.names_eq fun c hc => (hall c hc).rule]
  exact (Yields.ok _).of_eq
    (List.flatMap_eq_nil_iff.mpr fun c hc => (hall c hc).faults_nil rfl).symm

theorem initializers (h : Is .initializers t) : Settled .initializers t := by
  obtain ⟨-, hall⟩ := h.initializers
  refine of_children h rfl ?_
  rw [VarDecl.values_eq fun c hc => (hall c hc).rule]
  exact Yields.mapM fun c hc => (ih hc (hall c hc) : Yields (Expr.ofTree c) c.faults)

theorem varDecl (h : Is .varDecl t) : Settled .varDecl t := by
  show Yields (VarDecl.ofGroup t) t.faults
  rcases h.varDecl_children with ⟨ns, ty, hc, hns, hty⟩ | ⟨ns, ty, vs, hc, hns, hty, hvs⟩
  · have hx : Yields (VarDecl.names ns) ns.faults := ih (by simp [hc]) hns
    have hy : Yields (Ty.ofVarType ty) ty.faults := ih (by simp [hc]) hty
    rw [VarDecl.ofGroup_two hc hns.rule hty.rule]
    refine (hx.bind fun names _ => hy.bind fun type _ => .ok _).of_eq ?_
    rw [faults_eq t, h.ownFaults_two hc hns hty, hc]
    simp
  · have hx : Yields (VarDecl.names ns) ns.faults := ih (by simp [hc]) hns
    have hy : Yields (Ty.ofVarType ty) ty.faults := ih (by simp [hc]) hty
    have hz : Yields (VarDecl.values vs) vs.faults := ih (by simp [hc]) hvs
    obtain ⟨-, hnames⟩ := hns.commaList .identifier (by decide) rfl
    obtain ⟨-, hvalues⟩ := hvs.initializers
    rw [VarDecl.ofGroup_three hc hns.rule hty.rule hvs.rule]
    -- once names, type and values are made, only the two numbers are compared
    have hlast : ∀ names type values, VarDecl.names ns = .ok names → VarDecl.values vs = .ok values →
        Yields (if values.length ≠ names.length then
            .error (.initializerCount t names.length values.length)
          else pure (List.zipWith (fun n e => VarDecl.mk n type (some e)) names values))
        t.ownFaults := by
      intro names type values hok hok'
      rw [VarDecl.names_eq fun c hc => (hnames c hc).rule] at hok
      rw [VarDecl.values_eq fun c hc => (hvalues c hc).rule] at hok'
      have hn : names.length = ns.children.length := by
        rw [← Except.ok.inj hok, List.length_map]
      have hv : values.length = vs.children.length := Visit.length_of_mapM hok'
      rw [h.ownFaults_three hc hns hty hvs, ← hn, ← hv]
      by_cases hlen : values.length = names.length
      · rw [if_neg (not_not_intro hlen), if_neg (not_not_intro hlen)]
        exact Yields.ok _
      · rw [if_pos hlen, if_pos hlen]
        rfl
    refine (hx.bind fun names hok => hy.bind fun type _ => hz.bind fun values hok' =>
      hlast names type values hok hok').of_eq ?_
    rw [faults_eq t, hc]
    simp

theorem paramDecl (h : Is .paramDecl t) : Settled .paramDecl t := by
  have hform : ∃ (i o : Option Tree) (n ty : Tree),
      t.children = i.toList ++ (o.toList ++ [n, ty]) ∧ (∀ x ∈ i, Is .kwInherit x) ∧
        (∀ x ∈ o, Is .kwOut x) ∧ Is .identifier n ∧ Is .varType ty := by
    obtain ⟨rs, hrs, hcs⟩ := h.shape (by decide) rfl
    have hrs : rs ∈ [[Rule.identifier, .varType], [.kwOut, .identifier, .varType],
      [.kwInherit, .identifier, .varType], [.kwInherit, .kwOut, .identifier, .varType]] := hrs
    simp only [List.mem_cons, List.not_mem_nil, or_false] at hrs
    rcases hrs with rfl | rfl | rfl | rfl
    · obtain ⟨n, ty, hc, hn, hty⟩ := forall₂_two hcs
      exact ⟨none, none, n, ty, hc, by simp, by simp, hn, hty⟩
    · obtain ⟨o, n, ty, hc, ho, hn, hty⟩ := forall₂_three hcs
      exact ⟨none, some o, n, ty, hc, by simp, by simpa using ho, hn, hty⟩
    · obtain ⟨i, n, ty, hc, hi, hn, hty⟩ := forall₂_three hcs
      exact ⟨some i, none, n, ty, hc, by simpa using hi, by simp, hn, hty⟩
    · obtain ⟨i, o, n, ty, hc, hi, ho, hn, hty⟩ := forall₂_four hcs
      exact ⟨some i, some o, n, ty, hc, by simpa using hi, by simpa using ho, hn, hty⟩
  obtain ⟨i, o, n, ty, hc, hi, ho, hn, hty⟩ := hform
  have hx : Yields (Ty.ofVarType ty) ty.faults := ih (by simp [hc]) hty
  refine of_children h rfl ?_
  rw [Param.ofTree_eq hc (fun x hx => (hi x hx).rule) (fun x hx => (ho x hx).rule) hn.rule hty.rule]
  refine hx.fmap.of_eq ?_
  have hnoi : i.toList.flatMap faults = [] := List.flatMap_eq_nil_iff.mpr fun x hx =>
    (hi x (Option.mem_toList.mp hx)).faults_nil rfl
  have hnoo : o.toList.flatMap faults = [] := List.flatMap_eq_nil_iff.mpr fun x hx =>
    (ho x (Option.mem_toList.mp hx)).faults_nil rfl
  rw [hc, List.flatMap_append, List.flatMap_append, hnoi, hnoo]
  simp [hn.faults_nil rfl]

theorem paramList (h : Is .paramList t) : Settled .paramList t := by
  obtain ⟨-, hall⟩ := h.commaList .paramDecl (by decide) rfl
  refine of_children h rfl ?_
  rw [Param.listOfTree_eq fun c hc => (hall c hc).rule]
  exact Yields.mapM fun c hc => (ih hc (hall c hc) : Yields (Param.ofTree c) c.faults)

theorem funcDecl (h : Is .funcDecl t) : Settled .funcDecl t := by
  have hform : ∃ (n ty b : Tree) (ps parent : Option Tree),
      t.children = n :: ty :: (ps.toList ++ (parent.toList ++ [b])) ∧ Is .identifier n ∧
        Is .funcType ty ∧ (∀ x ∈ ps, Is .paramList x) ∧ (∀ x ∈ parent, Is .identifier x) ∧
        Is .block b := by
    obtain ⟨rs, hrs, hcs⟩ := h.shape (by decide) rfl
    have hrs : rs ∈ [[Rule.identifier, .funcType, .block],
      [.identifier, .funcType, .identifier, .block], [.identifier, .funcType, .paramList, .block],
      [.identifier, .funcType, .paramList, .identifier, .block]] := hrs
    simp only [List.mem_cons, List.not_mem_nil, or_false] at hrs
    rcases hrs with rfl | rfl | rfl | rfl
    · obtain ⟨n, ty, b, hc, hn, hty, hb⟩ := forall₂_three hcs
      exact ⟨n, ty, b, none, none, hc, hn, hty, by simp, by simp, hb⟩
    · obtain ⟨n, ty, p, b, hc, hn, hty, hp, hb⟩ := forall₂_four hcs
      exact ⟨n, ty, b, none, some p, hc, hn, hty, by simp, by simpa using hp, hb⟩
    · obtain ⟨n, ty, ps, b, hc, hn, hty, hps, hb⟩ := forall₂_four hcs
      exact ⟨n, ty, b, some ps, none, hc, hn, hty, by simpa using hps, by simp, hb⟩
    · obtain ⟨n, cs, hn, hcs, hc⟩ := List.forall₂_cons_left_iff.mp hcs
      obtain ⟨ty, ps, p, b, rfl, hty, hps, hp, hb⟩ := forall₂_four hcs
      exact ⟨n, ty, b, some ps, some p, hc, hn, hty, by simpa using hps, by simpa using hp, hb⟩
  obtain ⟨n, ty, b, ps, parent, hc, hn, hty, hps, hp, hb⟩ := hform
  have hx : Yields (Ty.ofFuncType ty) ty.faults := ih (by simp [hc]) hty
  have hy : Yields (Param.listOf ps) (ps.toList.flatMap faults) := by
    cases ps with
    | none => exact Yields.ok []
    | some ps =>
      have hlist : Yields (Param.listOfTree ps) ps.faults := ih (by simp [hc]) (hps ps rfl)
      exact hlist.of_eq (by simp)
  have hz : Yields (Stmt.ofBlock b) b.faults := ih (by simp [hc]) hb
  refine of_children h rfl ?_
  rw [FuncDecl.ofTree_eq hc hn.rule hty.rule (fun x hx => (hps x hx).rule)
    (fun x hx => (hp x hx).rule) hb.rule]
  refine (hx.bind fun ty _ => hy.bind fun ps _ => hz.bind fun b _ => .ok _).of_eq ?_
  have hno : parent.toList.flatMap faults = [] := List.flatMap_eq_nil_iff.mpr fun x hx =>
    (hp x (Option.mem_toList.mp hx)).faults_nil rfl
  rw [hc, List.flatMap_cons, List.flatMap_cons, List.flatMap_append, List.flatMap_append, hno]
  simp [hn.faults_nil rfl]

theorem declaration (h : Is .declaration t) : Settled .declaration t := by
  obtain ⟨r', hr, d, hc, hd⟩ := h.shape_one [.funcDecl, .varDecl] (by decide) rfl rfl
  refine of_children h rfl ?_
  rw [Decl.ofTree_eq hc hd.rule hr, hc]
  simp only [List.mem_cons, List.not_mem_nil, or_false] at hr
  rcases hr with rfl | rfl
  · exact (ih (by simp [hc]) hd : Yields (FuncDecl.ofTree d) d.faults).fmap.of_eq (by simp)
  · exact (ih (by simp [hc]) hd : Yields (VarDecl.ofGroup d) d.faults).fmap.of_eq (by simp)

theorem program (h : Is .program t) : Settled .program t := by
  obtain ⟨ds, e, hc, -, hds, he⟩ := h.program
  refine of_children h rfl ?_
  rw [Program.ofTree_eq hc (fun d hd => (hds d hd).rule) he.rule, hc]
  have hall : ∀ d ∈ ds, Yields (Decl.ofTree d) d.faults := fun d hd =>
    ih (by simp [hc, hd]) (hds d hd)
  refine (Yields.mapM hall).fmap.of_eq ?_
  rw [List.flatMap_append, List.flatMap_singleton, he.faults_nil rfl, List.append_nil]

end Settled

/-- **Every conforming node is settled**: its faults are met in their order. -/
theorem Tree.Conforms.ordered {t : Tree} (h : t.Conforms) :
    ∀ {r : Rule}, t.rule? = some r → Settled r t := by
  induction h with
  | token ha =>
    intro r hr
    obtain rfl := Option.some.inj hr
    have hk := kind_of_allows ha
    unfold Settled
    split <;> trivial
  | @node r a b ps hk ht hf hp ih =>
    intro r' hr
    obtain rfl := Option.some.inj hr
    have h : Is r (.node r a b ps) := ⟨rfl, .node hk ht hf hp⟩
    have ih : ∀ {r' : Rule} {c : Tree}, c ∈ (Tree.node r a b ps).children → Is r' c →
        Settled r' c := by
      intro r' c hc hr'
      obtain ⟨hmem, hn⟩ := List.mem_filter.mp hc
      exact ih c hmem hn hr'.rule
    cases r with
    | strLit => exact Settled.strLit h
    | boolLit => exact Settled.boolLit h
    | literal => exact Settled.literal ih h
    | primType => exact Settled.primType h
    | dimensions => exact Settled.dimensions h
    | arrayType => exact Settled.arrayType ih h
    | varType => exact Settled.varType ih h
    | funcType => exact Settled.funcType ih h
    | expression => exact Settled.expression ih h
    | relational => exact Settled.relational ih h
    | logical => exact Settled.logical ih h
    | additive => exact Settled.additive ih h
    | multiplicative => exact Settled.multiplicative ih h
    | notExpr => exact Settled.notExpr ih h
    | negExpr => exact Settled.negExpr ih h
    | primary => exact Settled.primary ih h
    | arguments => exact Settled.arguments ih h
    | arrayCell => exact Settled.arrayCell ih h
    | funcCall => exact Settled.funcCall ih h
    | arrayLit => exact Settled.arrayLit ih h
    | lhs => exact Settled.lhs ih h
    | assign => exact Settled.assign ih h
    | assignStmt => exact Settled.assignStmt ih h
    | ifStmt => exact Settled.ifStmt ih h
    | forStmt => exact Settled.forStmt ih h
    | whileStmt => exact Settled.whileStmt ih h
    | doWhileStmt => exact Settled.doWhileStmt ih h
    | returnStmt => exact Settled.returnStmt ih h
    | callStmt => exact Settled.callStmt ih h
    | statement => exact Settled.statement ih h
    | block => exact Settled.block ih h
    | nameList => exact Settled.nameList h
    | initializers => exact Settled.initializers ih h
    | varDecl => exact Settled.varDecl ih h
    | paramDecl => exact Settled.paramDecl ih h
    | paramList => exact Settled.paramList ih h
    | funcDecl => exact Settled.funcDecl ih h
    | declaration => exact Settled.declaration ih h
    | program => exact Settled.program ih h
    | _ => trivial

/-- A program fails exactly if there is a fault in its tree, and then with one of them. -/
theorem Tree.Conforms.settled {t : Tree} (h : t.Conforms) (hr : t.rule? = some .program) :
    Blames (Program.ofTree t) t.Has := by
  have hx : Yields (Program.ofTree t) t.faults := h.ordered hr
  have hiff : (· ∈ t.faults) = t.Has := funext fun f => propext (mem_faults t)
  exact hiff ▸ hx.blames

end Mt22
