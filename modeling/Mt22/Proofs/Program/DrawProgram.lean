import Mt22.Proofs.Program.Draw

/-!
# Drawn statements and declarations

What is printed of a well-formed program is drawn: some tree has these tokens and gives the program
back (`Program.drawn`).  An `else` can be printed only after a branch that does not end with an open
`if`, so that of a statement it is also said whether its tree is open (`Stmt.Shown`).
-/

namespace Mt22

open Mt22.Tree Mt22.Token Mt22.Peg

variable {ws : List (List Char)}

/-- Any of the alternatives of a choice will do. -/
theorem Peg.Fits.oneOf {e : Peg} {es : List Peg} {ts : List Tree} (he : e ∈ es) (h : e.Fits ts) :
    (Peg.oneOf es).Fits ts := by
  induction es with
  | nil => cases he
  | cons a es ih =>
    cases es with
    | nil => exact List.mem_singleton.mp he ▸ h
    | cons b es =>
      rcases List.mem_cons.mp he with rfl | he
      · exact .left h
      · exact .right (ih he)

theorem Spelled.numerals {ns : List Nat} {wss : List (List (List Char))}
    (h : List.Forall₂ Spelled (ns.map fun n => [Piece.numeral n]) wss) :
    wss = ns.map fun n => [Nat.toDigits 10 n] := by
  induction ns generalizing wss with
  | nil => exact List.forall₂_nil_left_iff.mp h
  | cons n ns ih =>
    obtain ⟨ws, wss, hw, hws, rfl⟩ := List.forall₂_cons_left_iff.mp h
    obtain ⟨vs, rfl, hvs⟩ := Spelled.word hw
    rw [List.forall₂_nil_left_iff.mp hvs, ih hws]
    rfl

/-! ### Types -/

theorem PrimTy.drawn (p : PrimTy) : Drawn .primType PrimTy.ofTree p [p.keyword.toList] := by
  have hk : Grown p.rule (.node p.rule 0 0 [.token p.keyword.toList]) [p.keyword.toList] := by
    cases p
    · exact Grows.node (r := .kwInteger) (.word _) rfl (by decide)
    · exact Grows.node (r := .kwFloat) (.word _) rfl (by decide)
    · exact Grows.node (r := .kwString) (.word _) rfl (by decide)
    · exact Grows.node (r := .kwBoolean) (.word _) rfl (by decide)
  have hmem : Peg.call p.rule ∈
      [.call .kwInteger, .call .kwFloat, .call .kwBoolean, .call .kwString] := by
    cases p <;> simp [PrimTy.rule]
  exact .node ((Grows.call hk).map fun _ => .oneOf hmem) rfl (by decide)
    (PrimTy.ofTree_eq (nodes_cons_of_rule hk.is.rule []) hk.is.rule)

/-- The dimensions of an array. -/
theorem grown_dimensions {ts : List Tree} {wss : List (List (List Char))}
    (h : List.Forall₂ (Grown .intLit) ts wss) (hne : ts ≠ []) :
    ∃ d, Grown .dimensions d (commaTokens wss) ∧ d.children = ts :=
  ⟨_, Grows.node (r := .dimensions) (.commaList h hne) rfl (by decide),
    nodes_separated (Grown.rules h)⟩

theorem drawn_dimensions {ns : List Nat} (hne : ns ≠ []) (hn : ∀ n ∈ ns, n < Number.unsignedLimit) :
    ∃ ts, List.Forall₂ (Grown .intLit) ts (ns.map fun n => [Nat.toDigits 10 n]) ∧ ts ≠ [] ∧
      ts.mapM Literal.dimension = .ok ns := by
  have hall : List.Forall₂ (Drawn .intLit Literal.dimension) ns
      (ns.map fun n => [Nat.toDigits 10 n]) := by
    rw [List.forall₂_map_right_iff, List.forall₂_same]
    intro n hmem
    obtain ⟨t, ht, hv⟩ := grown_numeral n
    exact ⟨t, ht, by rw [Literal.dimension_eq ht.is, hv, if_pos (hn n hmem)]⟩
  obtain ⟨ts, hts, hm⟩ := Drawn.all hall
  refine ⟨ts, hts, ?_, hm⟩
  rintro rfl
  exact hne (List.map_eq_nil_iff.mp (List.forall₂_nil_left_iff.mp hts))

namespace Ty

/-- An array type is what its dimensions and its elements are. -/
theorem grown_array {ts : List Tree} {wss : List (List (List Char))} (p : PrimTy)
    (h : List.Forall₂ (Grown .intLit) ts wss) (hne : ts ≠ []) :
    ∃ t, Grown .varType t ("array".toList :: "[".toList ::
        (commaTokens wss ++ ["]".toList, "of".toList, p.keyword.toList])) ∧
      ofVarType t = (fun ns => .array ns p) <$> ts.mapM Literal.dimension := by
  obtain ⟨d, hd, rfl⟩ := grown_dimensions h hne
  obtain ⟨q, hq, hqv⟩ := p.drawn
  have hbody := (Grows.word "array").item ((Grows.text "[".toList).item ((Grows.call hd).item
    ((Grows.text "]".toList).item ((Grows.word "of").item (Grows.call hq)))))
  have hc : (Tree.node .arrayType 0 0 [.token "array".toList, .token "[".toList, d,
      .token "]".toList, .token "of".toList, q]).children = [d, q] := by
    rw [children, parts, nodes_cons_token, nodes_cons_token, nodes_cons_of_rule hd.is.rule,
      nodes_cons_token, nodes_cons_token, nodes_cons_of_rule hq.is.rule, nodes_nil]
  have ha := Grows.node (r := .arrayType) hbody rfl (by decide)
  refine ⟨_, Grows.node (r := .varType) (Grows.call ha).right.right rfl (by decide), ?_⟩
  rw [ofVarType_eq rfl ha.is.rule (by decide),
    ofArrayType_eq hc hd.is.rule hq.is.rule (Grown.rules h) hne, hqv]
  cases d.children.mapM Literal.dimension <;> rfl

/-- What is printed of a type of variables is drawn. -/
theorem drawn {ty : Ty} (h : ty.isOfVariable = true) (hs : Spelled ty.pieces ws) :
    Drawn .varType ofVarType ty ws := by
  cases ty with
  | prim p =>
    rw [Spelled.last hs]
    obtain ⟨t, ht, hv⟩ := p.drawn
    have hc : (Tree.node .varType 0 0 [t]).children = [t] := nodes_cons_of_rule ht.is.rule []
    exact .node (Grows.call ht).left rfl (by decide)
      ((ofVarType_eq hc ht.is.rule (by decide)).trans (by rw [hv]; rfl))
  | auto =>
    rw [Spelled.last hs]
    have ht : Grown .kwAuto (.node .kwAuto 0 0 [.token "auto".toList]) ["auto".toList] :=
      Grows.node (r := .kwAuto) (.word _) rfl (by decide)
    exact .node (Grows.call ht).left.right rfl (by decide) (ofVarType_eq rfl ht.is.rule (by decide))
  | void => cases h
  | array ns p =>
    simp only [isOfVariable, Bool.and_eq_true, Bool.not_eq_true', List.isEmpty_eq_false_iff,
      List.all_eq_true, decide_eq_true_eq] at h
    obtain ⟨vs, rfl, h₁⟩ := Spelled.mark hs
    obtain ⟨vs, rfl, h₂⟩ := Spelled.mark h₁
    obtain ⟨us, vs, rfl, hu, hv⟩ := Spelled.append h₂
    obtain ⟨wss, rfl, hwss⟩ := hu.withCommas
    obtain ⟨vs, rfl, h₃⟩ := Spelled.mark hv
    obtain ⟨vs, rfl, h₄⟩ := Spelled.mark h₃
    rw [Spelled.last h₄]
    rw [Spelled.numerals hwss]
    obtain ⟨ts, hts, hne, hns⟩ := drawn_dimensions h.1 h.2
    obtain ⟨t, ht, hv⟩ := grown_array p hts hne
    exact ⟨t, ht, by rw [hv, hns]; rfl⟩

theorem drawn_auto : Drawn .varType ofVarType .auto ["auto".toList] := drawn rfl (.cons rfl .nil)

theorem drawn_integer : Drawn .varType ofVarType (.prim .integer) ["integer".toList] :=
  drawn rfl (.cons rfl .nil)

/-- What is printed of a type that a function may return is drawn. -/
theorem drawn_returned {ty : Ty} (h : ty.isOfFunction = true) (hs : Spelled ty.pieces ws) :
    Drawn .funcType ofFuncType ty ws := by
  rw [isOfFunction, Bool.or_eq_true, decide_eq_true_eq] at h
  rcases h with rfl | h
  · rw [Spelled.last hs]
    have ht : Grown .kwVoid (.node .kwVoid 0 0 [.token "void".toList]) ["void".toList] :=
      Grows.node (r := .kwVoid) (.word _) rfl (by decide)
    exact .node (Grows.call ht).left rfl (by decide) (ofFuncType_void rfl ht.is.rule)
  · obtain ⟨t, ht, hv⟩ := drawn h hs
    have hc : (Tree.node .funcType 0 0 [t]).children = [t] := nodes_cons_of_rule ht.is.rule []
    exact .node (Grows.call ht).right rfl (by decide) ((ofFuncType_var hc ht.is.rule).trans hv)

end Ty

/-! ### Variables and assignments -/

/-- The name of a variable that is declared alone. -/
theorem VarDecl.drawn_name {name : String} (h : isName name.toList = true) :
    Drawn .nameList VarDecl.names [name] [name.toList] := by
  obtain ⟨n, hn, hname⟩ := Expr.grown_name h
  have hlist : Grows (.star (.seq (.text ",".toList) (.call .identifier))) [] [] := .nil
  have hbody := (Grows.call hn).item hlist
  rw [List.append_nil] at hbody
  have hc : (Tree.node .nameList 0 0 [n]).children = [n] := nodes_cons_of_rule hn.is.rule []
  refine .node hbody rfl (by decide) ?_
  rw [names_eq (by rw [hc]; simpa using hn.is.rule), hc, List.map_singleton, hname]

/-- The value of a variable that is declared alone. -/
theorem VarDecl.grown_value {u : Tree} (hu : Grown .expression u ws) :
    ∃ t, Grown .initializers t ("=".toList :: ws) ∧
      VarDecl.values t = (fun e => [e]) <$> Expr.ofTree u := by
  have hlist : Grows (.star (.seq (.text ",".toList) (.call .expression))) [] [] := .nil
  have hbody := (Grows.text "=".toList).item ((Grows.call hu).item hlist)
  rw [List.append_nil] at hbody
  have hc : (Tree.node .initializers 0 0 [.token "=".toList, u]).children = [u] :=
    nodes_cons_of_rule hu.is.rule []
  refine ⟨_, Grows.node (r := .initializers) hbody rfl (by decide), ?_⟩
  rw [values_eq (by rw [hc]; simpa using hu.is.rule), hc, List.mapM_cons]
  cases Expr.ofTree u <;> rfl

/-- A variable with a value. -/
theorem VarDecl.grown {name : String} {ty : Ty} {u : Tree} {us : List (List Char)}
    (hname : isName name.toList = true) (hty : Drawn .varType Ty.ofVarType ty us)
    (hu : Grown .expression u ws) :
    ∃ t, Grown .varDecl t
      (name.toList :: ":".toList :: (us ++ "=".toList :: (ws ++ [";".toList]))) ∧
      VarDecl.ofGroup t = (fun e => [⟨name, ty, some e⟩]) <$> Expr.ofTree u := by
  obtain ⟨n, hn, hnv⟩ := drawn_name hname
  obtain ⟨y, hy, hyv⟩ := hty
  obtain ⟨i, hi, hiv⟩ := grown_value hu
  have hbody := (Grows.call hn).item ((Grows.text ":".toList).item ((Grows.call hy).item
    ((Grows.call hi).within.seq (Grows.text ";".toList))))
  have hc : (Tree.node .varDecl 0 0
      (n :: .token ":".toList :: y :: ([i] ++ [.token ";".toList]))).children = [n, y, i] := by
    rw [children, parts, nodes_cons_of_rule hn.is.rule, nodes_cons_token,
      nodes_cons_of_rule hy.is.rule, List.singleton_append, nodes_cons_of_rule hi.is.rule]
    rfl
  refine ⟨_, Grows.node (r := .varDecl) hbody rfl (by decide), ?_⟩
  rw [ofGroup_three hc hn.is.rule hy.is.rule hi.is.rule, hnv, hyv, hiv]
  cases Expr.ofTree u <;> rfl

/-- A variable without a value. -/
theorem VarDecl.grown_bare {name : String} {y : Tree} (hname : isName name.toList = true)
    (hy : Grown .varType y ws) :
    ∃ t, Grown .varDecl t (name.toList :: ":".toList :: (ws ++ [";".toList])) ∧
      VarDecl.ofGroup t = (fun ty => [⟨name, ty, none⟩]) <$> Ty.ofVarType y := by
  obtain ⟨n, hn, hnv⟩ := drawn_name hname
  have hbody := (Grows.call hn).item ((Grows.text ":".toList).item ((Grows.call hy).item
    ((Grows.without (a := .call .initializers)).seq (Grows.text ";".toList))))
  have hc : (Tree.node .varDecl 0 0
      [n, .token ":".toList, y, .token ";".toList]).children = [n, y] := by
    rw [children, parts, nodes_cons_of_rule hn.is.rule, nodes_cons_token,
      nodes_cons_of_rule hy.is.rule]
    rfl
  refine ⟨_, Grows.node (r := .varDecl) hbody rfl (by decide), ?_⟩
  refine (ofGroup_two hc hn.is.rule hy.is.rule).trans ?_
  rw [hnv]
  cases Ty.ofVarType y <;> rfl

/-- What is printed of a variable is drawn, as a group of its own. -/
theorem VarDecl.drawn {v : VarDecl} (h : v.isWellFormed = true) (hs : Spelled v.pieces ws) :
    Drawn .varDecl VarDecl.ofGroup [v] ws := by
  obtain ⟨name, ty, init⟩ := v
  simp only [isWellFormed, Bool.and_eq_true] at h
  obtain ⟨vs, rfl, h₁⟩ := Spelled.word hs
  obtain ⟨vs, rfl, h₂⟩ := Spelled.mark h₁
  obtain ⟨us, vs, rfl, hu, hv⟩ := Spelled.append h₂
  have hty := Ty.drawn h.1.2 hu
  cases init with
  | none =>
    rw [Spelled.last hv]
    obtain ⟨y, hy, hyv⟩ := hty
    obtain ⟨t, ht, htv⟩ := grown_bare h.1.1 hy
    exact ⟨t, ht, by rw [htv, hyv]; rfl⟩
  | some e =>
    obtain ⟨vs, rfl, h₃⟩ := Spelled.mark hv
    obtain ⟨xs, vs, rfl, hx, hv⟩ := Spelled.append h₃
    rw [hv.last]
    obtain ⟨u, hu, he⟩ := Expr.drawnAt e h.2 (Nat.zero_le 7) hx
    have he : Expr.ofTree u = .ok e := he
    obtain ⟨t, ht, hv⟩ := grown h.1.1 hty hu
    exact ⟨t, ht, by rw [hv, he]; rfl⟩

theorem Target.drawn_id {x : String} (h : isName x.toList = true) :
    Drawn .lhs Target.ofTree (.id x) [x.toList] := by
  obtain ⟨t, ht, hname⟩ := Expr.grown_name h
  have hc : (Tree.node .lhs 0 0 [t]).children = [t] := nodes_cons_of_rule ht.is.rule []
  exact .node (Grows.call ht).right rfl (by decide)
    ((ofTree_eq hc ht.is.rule (by decide)).trans (by rw [hname]))

/-- What is printed of a target is drawn. -/
theorem Target.drawn {x : Target} (h : x.toExpr.isWellFormed = true)
    (hs : Spelled (x.toExpr.pieces 0) ws) : Drawn .lhs Target.ofTree x ws := by
  cases x with
  | id s =>
    obtain ⟨vs, rfl, h₁⟩ := Spelled.word hs
    obtain rfl := List.forall₂_nil_left_iff.mp h₁
    exact drawn_id h
  | cell s es =>
    simp only [toExpr, Expr.isWellFormed, Bool.and_eq_true, Bool.not_eq_true',
      List.isEmpty_eq_false_iff] at h
    obtain ⟨vs, rfl, h₁⟩ := Spelled.word hs
    obtain ⟨vs, rfl, h₂⟩ := Spelled.mark h₁
    obtain ⟨us, vs, rfl, hu, hv⟩ := Spelled.append h₂
    obtain ⟨wss, rfl, hwss⟩ := hu.withCommas
    rw [hv.last]
    obtain ⟨t, ht, hv⟩ := Expr.drawn_cell h.1.1 (Expr.drawnAll es h.2 hwss) h.1.2
    have hc : (Tree.node .lhs 0 0 [t]).children = [t] := nodes_cons_of_rule ht.is.rule []
    exact .node (Grows.call ht).left rfl (by decide)
      ((ofTree_eq hc ht.is.rule (by decide)).trans (by rw [hv]; rfl))

/-- An assignment is a target and a value with a sign between them. -/
theorem Assign.drawn_of {a : Assign} {us : List (List Char)}
    (hl : Drawn .lhs Target.ofTree a.target us) (he : Expr.DrawnAt 0 a.value ws) :
    Drawn .assign Assign.ofTree a (us ++ "=".toList :: ws) := by
  obtain ⟨l, hl, hlv⟩ := hl
  obtain ⟨e, he, hev⟩ := he
  have hev : Expr.ofTree e = .ok a.value := hev
  have hbody := (Grows.call hl).item ((Grows.text "=".toList).item (Grows.call he))
  refine .node hbody rfl (by decide) ?_
  have hc : (Tree.node .assign 0 0 [l, .token "=".toList, e]).children = [l, e] := by
    rw [children, parts, nodes_cons_of_rule hl.is.rule, nodes_cons_token,
      nodes_cons_of_rule he.is.rule, nodes_nil]
  exact (ofTree_eq hc hl.is.rule he.is.rule).trans (by rw [hlv, hev]; rfl)

/-- What is printed of an assignment is drawn. -/
theorem Assign.drawn {a : Assign} (h : a.isWellFormed = true) (hs : Spelled a.pieces ws) :
    Drawn .assign Assign.ofTree a ws := by
  simp only [isWellFormed, Bool.and_eq_true] at h
  obtain ⟨us, vs, rfl, hu, hv⟩ := Spelled.append hs
  obtain ⟨vs, rfl, h₁⟩ := Spelled.mark hv
  exact drawn_of (Target.drawn h.1 hu) (Expr.drawnAt a.value h.2 (Nat.zero_le 7) h₁)

/-! ### Statements -/

namespace Stmt

/-- Some tree has these tokens and gives the statement, and it is open if the statement is. -/
def Shown (s : Stmt) (ws : List (List Char)) : Prop :=
  ∃ t, Grown .statement t ws ∧ ofTree t = .ok s ∧ t.isOpen = s.endsOpen

/-- A statement is what its form is. -/
theorem Shown.of_form {s : Stmt} {r : Rule} {f : Tree} (hf : Grown r f ws) (hr : r ∈ formRules)
    (hv : ∀ t, t.children = [f] → ofTree t = .ok s) (ho : f.isOpen = s.endsOpen) : Shown s ws := by
  have hbody : Grows Rule.statement.body [f] ws := (Grows.call hf).map fun _ =>
    .oneOf (List.mem_map_of_mem (f := Peg.call) hr)
  exact ⟨_, hbody.node rfl (by decide), hv _ (nodes_cons_of_rule hf.is.rule []), ho⟩

/-- A node that ends with a token is not open. -/
theorem isOpen_of_last {r : Rule} {w : List Char} (ts : List Tree) (hr : r ≠ .ifStmt) :
    (Tree.node r 0 0 (ts ++ [.token w])).isOpen = false := by
  rw [isOpen, openAll_append_singleton ts rfl, decide_eq_false hr]
  rfl

/-- A node that ends with a statement is open if the statement is. -/
theorem isOpen_of_branch {r : Rule} {t : Tree} (ts : List Tree) (hr : r ≠ .ifStmt)
    (ht : t.rule? = some .statement) : (Tree.node r 0 0 (ts ++ [t])).isOpen = t.isOpen := by
  have htrivia : t.isTrivia = false := by
    cases t with
    | token | trivia => cases ht
    | node => rfl
  rw [isOpen, openAll_append_singleton ts htrivia, decide_eq_false hr]
  rfl

/-- Some trees have these tokens as the items of a block, and each gives its own statement. -/
def ItemsShown (ss : List Stmt) (ws : List (List Char)) : Prop :=
  ∃ ts, Grows (.star (oneOf [.call .varDecl, .call .statement])) ts ws ∧
    (∀ t ∈ ts, t.rule? = some .varDecl ∨ t.rule? = some .statement) ∧
    ts.mapM ofItem = .ok (ss.map fun s => [s])

theorem ItemsShown.nil : ItemsShown [] [] := ⟨[], .nil, by simp, rfl⟩

theorem ItemsShown.cons {r : Rule} {s : Stmt} {ss : List Stmt} {i : Tree} {us : List (List Char)}
    (hi : Grown r i us) (hr : r = .varDecl ∨ r = .statement) (hv : ofItem i = .ok [s])
    (h : ItemsShown ss ws) : ItemsShown (s :: ss) (us ++ ws) := by
  obtain ⟨ts, hg, hrules, hm⟩ := h
  have hitem : Grows (oneOf [.call .varDecl, .call .statement]) [i] us :=
    (Grows.call hi).map fun _ => .oneOf (by rcases hr with rfl | rfl <;> simp)
  refine ⟨i :: ts, hitem.cons hg, ?_, by rw [List.mapM_cons, hv, hm]; rfl⟩
  intro t ht
  rcases List.mem_cons.mp ht with rfl | ht
  · rw [hi.is.rule]
    exact hr.imp (congrArg some) (congrArg some)
  · exact hrules t ht

theorem ItemsShown.block {ss : List Stmt} (h : ItemsShown ss ws) : ∃ ts,
    Grown .block (.node .block 0 0 (.token "\x7b".toList :: (ts ++ [.token "\x7d".toList])))
      ("\x7b".toList :: (ws ++ ["\x7d".toList])) ∧
    ofBlock (.node .block 0 0 (.token "\x7b".toList :: (ts ++ [.token "\x7d".toList]))) = .ok ss := by
  obtain ⟨ts, hg, hrules, hm⟩ := h
  have hbody := (Grows.text "\x7b".toList).item (hg.seq (Grows.text "\x7d".toList))
  have hnodes : nodes ts = ts := List.filter_eq_self.mpr fun t ht =>
    (hrules t ht).elim isNode_of_rule isNode_of_rule
  have hc : (Tree.node .block 0 0
      (.token "\x7b".toList :: (ts ++ [.token "\x7d".toList]))).children = ts := by
    rw [children, parts, nodes_cons_token, nodes_append, hnodes, nodes_cons_token, nodes_nil,
      List.append_nil]
  refine ⟨ts, Grows.node (r := .block) hbody rfl (by decide), ?_⟩
  rw [ofBlock_eq (by rwa [hc]), hc, hm]
  show Except.ok (ss.map fun s => [s]).flatten = _
  rw [← List.flatMap_def, List.flatMap_singleton']

section Forms

variable {e u : Expr} {a b : Stmt} {us vs : List (List Char)}

theorem Shown.ifThen (he : Expr.DrawnAt 0 e us) (ha : Shown a vs) :
    Shown (.ifThen e a) ("if".toList :: "(".toList :: (us ++ ")".toList :: vs)) := by
  obtain ⟨t, ht, hx⟩ := he
  obtain ⟨x, hxg, hy, -⟩ := ha
  have hx : Expr.ofTree t = .ok e := hx
  have hbody : Grows Rule.ifStmt.body (ifParts t x)
      ("if".toList :: "(".toList :: (us ++ ")".toList :: (vs ++ []))) :=
    (Grows.word "if").item ((Grows.text "(".toList).item ((Grows.call ht).item
      ((Grows.text ")".toList).item ((Grows.call hxg).item .without))))
  rw [List.append_nil] at hbody
  have helse := hasElse_ifParts (isNode_of_rule ht.is.rule) (isNode_of_rule hxg.is.rule)
  have hc : (Tree.node .ifStmt 0 0 (ifParts t x)).children = [t, x] := by
    rw [children, parts, ifParts, nodes_cons_token, nodes_cons_token, nodes_cons_of_rule ht.is.rule,
      nodes_cons_token, nodes_cons_of_rule hxg.is.rule, nodes_nil]
  refine .of_form (hbody.node_of_noStray rfl (noStray_of_hasElse helse)) (by decide)
    (fun t' ht' => ?_) ?_
  · rw [ofTree_eq ht' rfl (by decide), ofIf_two hc ht.is.rule hxg.is.rule, hx, hy]
    rfl
  · rw [isOpen, helse]
    rfl

theorem Shown.ifElse (he : Expr.DrawnAt 0 e us) (ha : Shown a vs) (hopen : a.endsOpen = false)
    (hb : Shown b ws) : Shown (.ifElse e a b)
      ("if".toList :: "(".toList :: (us ++ ")".toList :: (vs ++ "else".toList :: ws))) := by
  obtain ⟨t, ht, hx⟩ := he
  obtain ⟨x, hxg, hy, hxo⟩ := ha
  obtain ⟨y, hyg, hz, hyo⟩ := hb
  have hx : Expr.ofTree t = .ok e := hx
  have hbody : Grows Rule.ifStmt.body (ifParts t x ++ [elseToken, y])
      ("if".toList :: "(".toList :: (us ++ ")".toList :: (vs ++ "else".toList :: ws))) :=
    (Grows.word "if").item ((Grows.text "(".toList).item ((Grows.call ht).item
      ((Grows.text ")".toList).item ((Grows.call hxg).item
        ((Grows.word "else").item (Grows.call hyg)).within))))
  have helse := hasElse_ifParts (isNode_of_rule ht.is.rule) (isNode_of_rule hxg.is.rule)
  have hnode := isNode_of_rule hyg.is.rule
  have htrivia : ∀ {u : Tree}, u.isNode = true → u.isTrivia = false := by
    intro u hu
    cases u with
    | token | trivia => cases hu
    | node => rfl
  -- the first branch is not open, so the `else` belongs to this `if`
  have hfirst : openAll (ifParts t x) = false := by
    have hlast : ifParts t x = [.token "if".toList, .token "(".toList, t, .token ")".toList] ++ [x] :=
      rfl
    rw [hlast, openAll_append_singleton _ (htrivia (isNode_of_rule hxg.is.rule)), hxo, hopen]
  have hstray : NoStray (ifParts t x ++ [elseToken, y]) :=
    .append_else helse hfirst (by rintro rfl; cases hnode)
  have hc : (Tree.node .ifStmt 0 0 (ifParts t x ++ [elseToken, y])).children = [t, x, y] := by
    rw [children, parts, ifParts, elseToken, nodes_append, nodes_cons_token, nodes_cons_token,
      nodes_cons_of_rule ht.is.rule, nodes_cons_token, nodes_cons_of_rule hxg.is.rule,
      nodes_cons_token, nodes_cons_of_rule hyg.is.rule, nodes_nil]
    rfl
  refine .of_form (hbody.node_of_noStray rfl hstray) (by decide) (fun t' ht' => ?_) ?_
  · rw [ofTree_eq ht' rfl (by decide), ofIf_three hc ht.is.rule hxg.is.rule hyg.is.rule, hx, hy, hz]
    rfl
  · have hhas : hasElse (ifParts t x ++ [elseToken, y]) = true := hasElse_iff.mpr (by simp)
    have hend : openAll (ifParts t x ++ [elseToken, y]) = y.isOpen := by
      have hsplit : ifParts t x ++ [elseToken, y] = (ifParts t x ++ [elseToken]) ++ [y] := by simp
      rw [hsplit, openAll_append_singleton _ (htrivia hnode)]
    rw [isOpen, hhas, hend, hyo]
    rfl

theorem Shown.whileLoop (he : Expr.DrawnAt 0 e us) (ha : Shown a vs) :
    Shown (.whileLoop e a) ("while".toList :: "(".toList :: (us ++ ")".toList :: vs)) := by
  obtain ⟨t, ht, hx⟩ := he
  obtain ⟨x, hxg, hy, hxo⟩ := ha
  have hx : Expr.ofTree t = .ok e := hx
  have hbody := (Grows.word "while").item ((Grows.text "(".toList).item ((Grows.call ht).item
    ((Grows.text ")".toList).item (Grows.call hxg))))
  have hc : (Tree.node .whileStmt 0 0 [.token "while".toList, .token "(".toList, t,
      .token ")".toList, x]).children = [t, x] := by
    rw [children, parts, nodes_cons_token, nodes_cons_token, nodes_cons_of_rule ht.is.rule,
      nodes_cons_token, nodes_cons_of_rule hxg.is.rule, nodes_nil]
  refine .of_form (Grows.node (r := .whileStmt) hbody rfl (by decide)) (by decide)
    (fun t' ht' => ?_) ((isOpen_of_branch [_, _, _, _] (by decide) hxg.is.rule).trans hxo)
  rw [ofTree_eq ht' rfl (by decide), ofWhile_eq hc ht.is.rule hxg.is.rule, hx, hy]
  rfl

theorem Shown.forLoop {i : Assign} {xs : List (List Char)} (hi : Drawn .assign Assign.ofTree i xs)
    (he : Expr.DrawnAt 0 e us) (hu : Expr.DrawnAt 0 u vs) (ha : Shown a ws) :
    Shown (.forLoop i e u a) ("for".toList :: "(".toList :: (xs ++ ",".toList :: (us ++
      ",".toList :: (vs ++ ")".toList :: ws)))) := by
  obtain ⟨i, hig, hv⟩ := hi
  obtain ⟨t, ht, hx⟩ := he
  obtain ⟨z, hzg, hz⟩ := hu
  obtain ⟨x, hxg, hy, hxo⟩ := ha
  have hx : Expr.ofTree t = .ok e := hx
  have hz : Expr.ofTree z = .ok u := hz
  have hbody := (Grows.word "for").item ((Grows.text "(".toList).item ((Grows.call hig).item
    ((Grows.text ",".toList).item ((Grows.call ht).item ((Grows.text ",".toList).item
      ((Grows.call hzg).item ((Grows.text ")".toList).item (Grows.call hxg))))))))
  have hc : (Tree.node .forStmt 0 0 [.token "for".toList, .token "(".toList, i, .token ",".toList, t,
      .token ",".toList, z, .token ")".toList, x]).children = [i, t, z, x] := by
    rw [children, parts, nodes_cons_token, nodes_cons_token, nodes_cons_of_rule hig.is.rule,
      nodes_cons_token, nodes_cons_of_rule ht.is.rule, nodes_cons_token,
      nodes_cons_of_rule hzg.is.rule, nodes_cons_token, nodes_cons_of_rule hxg.is.rule, nodes_nil]
  refine .of_form (Grows.node (r := .forStmt) hbody rfl (by decide)) (by decide)
    (fun t' ht' => ?_)
    ((isOpen_of_branch [_, _, _, _, _, _, _, _] (by decide) hxg.is.rule).trans hxo)
  rw [ofTree_eq ht' rfl (by decide), ofFor_eq hc hig.is.rule ht.is.rule hzg.is.rule hxg.is.rule, hv,
    hx, hz, hy]
  rfl

theorem Shown.block {body : List Stmt} (h : ItemsShown body us) :
    Shown (.block body) ("\x7b".toList :: (us ++ ["\x7d".toList])) := by
  obtain ⟨ts, hg, hv⟩ := h.block
  refine .of_form hg (by decide) (fun t' ht' => ?_) (isOpen_of_last (_ :: ts) (by decide))
  rw [ofTree_eq ht' rfl (by decide), hv]
  rfl

theorem Shown.doLoop {body : List Stmt} (hb : ItemsShown body us) (he : Expr.DrawnAt 0 e vs) :
    Shown (.doLoop body e) ("do".toList :: "\x7b".toList :: (us ++ "\x7d".toList ::
      "while".toList :: "(".toList :: (vs ++ [")".toList, ";".toList]))) := by
  obtain ⟨ts, hg, hy⟩ := hb.block
  generalize Tree.node .block 0 0 (.token "\x7b".toList :: (ts ++ [.token "\x7d".toList])) = x at hg hy
  have hxg : Grown .block x ("\x7b".toList :: (us ++ ["\x7d".toList])) := hg
  obtain ⟨t, ht, hx⟩ := he
  have hx : Expr.ofTree t = .ok e := hx
  have hbody := (Grows.word "do").item ((Grows.call hxg).item ((Grows.word "while").item
    ((Grows.text "(".toList).item ((Grows.call ht).item ((Grows.text ")".toList).item
      (Grows.text ";".toList))))))
  have hc : (Tree.node .doWhileStmt 0 0 [.token "do".toList, x, .token "while".toList,
      .token "(".toList, t, .token ")".toList, .token ";".toList]).children = [x, t] := by
    rw [children, parts, nodes_cons_token, nodes_cons_of_rule hxg.is.rule, nodes_cons_token,
      nodes_cons_token, nodes_cons_of_rule ht.is.rule]
    rfl
  have hwords : ["do".toList] ++ (("\x7b".toList :: (us ++ ["\x7d".toList])) ++ ("while".toList ::
      "(".toList :: (vs ++ [")".toList, ";".toList]))) = "do".toList :: "\x7b".toList :: (us ++
        "\x7d".toList :: "while".toList :: "(".toList :: (vs ++ [")".toList, ";".toList])) := by
    simp
  refine hwords ▸ .of_form (Grows.node (r := .doWhileStmt) hbody rfl (by decide)) (by decide)
    (fun t' ht' => ?_) (isOpen_of_last [_, _, _, _, _, _] (by decide))
  rw [ofTree_eq ht' rfl (by decide), ofDo_eq hc hxg.is.rule ht.is.rule, hy, hx]
  rfl

theorem Shown.ret_none : Shown (.ret none) ["return".toList, ";".toList] := by
  have hbody := (Grows.word "return").item
    ((Grows.without (a := .call .expression)).seq (Grows.text ";".toList))
  refine .of_form (Grows.node (r := .returnStmt) hbody rfl (by decide)) (by decide)
    (fun t' ht' => ?_) (isOpen_of_last [_] (by decide))
  rw [ofTree_eq ht' rfl (by decide)]
  exact ofReturn_none rfl

theorem Shown.ret_some (he : Expr.DrawnAt 0 e us) :
    Shown (.ret (some e)) ("return".toList :: (us ++ [";".toList])) := by
  obtain ⟨t, ht, hx⟩ := he
  have hx : Expr.ofTree t = .ok e := hx
  have hbody := (Grows.word "return").item ((Grows.call ht).within.seq (Grows.text ";".toList))
  have hc : (Tree.node .returnStmt 0 0
      (.token "return".toList :: ([t] ++ [.token ";".toList]))).children = [t] := by
    rw [children, parts, nodes_cons_token, List.singleton_append, nodes_cons_of_rule ht.is.rule]
    rfl
  refine .of_form (Grows.node (r := .returnStmt) hbody rfl (by decide)) (by decide)
    (fun t' ht' => ?_) (isOpen_of_last [_, _] (by decide))
  rw [ofTree_eq ht' rfl (by decide), ofReturn_some hc ht.is.rule, hx]
  rfl

theorem Shown.call {s : String} {es : List Expr} (h : Drawn .funcCall Expr.ofCall (s, es) us) :
    Shown (.call s es) (us ++ [";".toList]) := by
  obtain ⟨t, ht, hx⟩ := h
  have hbody := (Grows.call ht).item (Grows.text ";".toList)
  have hc : (Tree.node .callStmt 0 0 [t, .token ";".toList]).children = [t] := by
    rw [children, parts, nodes_cons_of_rule ht.is.rule]
    rfl
  refine .of_form (Grows.node (r := .callStmt) hbody rfl (by decide)) (by decide)
    (fun t' ht' => ?_) (isOpen_of_last [_] (by decide))
  rw [ofTree_eq ht' rfl (by decide), ofCall_eq hc ht.is.rule, hx]
  rfl

theorem Shown.assign {x : Assign} (h : Drawn .assign Assign.ofTree x us) :
    Shown (.assign x) (us ++ [";".toList]) := by
  obtain ⟨t, ht, hx⟩ := h
  have hbody := (Grows.call ht).item (Grows.text ";".toList)
  have hc : (Tree.node .assignStmt 0 0 [t, .token ";".toList]).children = [t] := by
    rw [children, parts, nodes_cons_of_rule ht.is.rule]
    rfl
  refine .of_form (Grows.node (r := .assignStmt) hbody rfl (by decide)) (by decide)
    (fun t' ht' => ?_) (isOpen_of_last [_] (by decide))
  rw [ofTree_eq ht' rfl (by decide), ofAssign_eq hc ht.is.rule, hx]
  rfl

theorem Shown.breakLoop : Shown .breakLoop ["break".toList, ";".toList] := by
  have hbody := (Grows.word "break").item (Grows.text ";".toList)
  exact .of_form (Grows.node (r := .breakStmt) hbody rfl (by decide)) (by decide)
    (fun t' ht' => ofTree_eq ht' rfl (by decide)) (isOpen_of_last [_] (by decide))

theorem Shown.continueLoop : Shown .continueLoop ["continue".toList, ";".toList] := by
  have hbody := (Grows.word "continue").item (Grows.text ";".toList)
  exact .of_form (Grows.node (r := .continueStmt) hbody rfl (by decide)) (by decide)
    (fun t' ht' => ofTree_eq ht' rfl (by decide)) (isOpen_of_last [_] (by decide))

end Forms

/-- An item of a block is a declared variable or a statement. -/
theorem itemsWellFormed_cons {s : Stmt} {ss : List Stmt} (h : itemsWellFormed (s :: ss) = true) :
    ((∃ v, s = .declare v ∧ v.isWellFormed = true) ∨ s.isWellFormed = true) ∧
      itemsWellFormed ss = true := by
  cases s with
  | declare v =>
    rw [itemsWellFormed, Bool.and_eq_true] at h
    exact ⟨.inl ⟨v, rfl, h.1⟩, h.2⟩
  | _ =>
    rw [itemsWellFormed, Bool.and_eq_true] at h
    · exact ⟨.inr h.1, h.2⟩
    · simp

mutual

/-- **What is printed of a well-formed statement is shown.** -/
theorem shown : ∀ (s : Stmt) {ws : List (List Char)}, s.isWellFormed = true →
    Spelled s.pieces ws → Shown s ws
  | .block body, ws, h, hs => by
    obtain ⟨vs, rfl, h₁⟩ := Spelled.mark hs
    obtain ⟨us, vs, rfl, hu, hv⟩ := Spelled.append h₁
    rw [hv.last]
    exact .block (itemsShown body h hu)
  | .ifThen e a, ws, h, hs => by
    simp only [isWellFormed, Bool.and_eq_true] at h
    obtain ⟨vs, rfl, h₁⟩ := Spelled.mark hs
    obtain ⟨vs, rfl, h₂⟩ := Spelled.mark h₁
    obtain ⟨us, vs, rfl, hu, hv⟩ := Spelled.append h₂
    obtain ⟨vs, rfl, h₃⟩ := Spelled.mark hv
    exact .ifThen (Expr.drawnAt e h.1 (Nat.zero_le 7) hu) (shown a h.2 h₃)
  | .ifElse e a b, ws, h, hs => by
    simp only [isWellFormed, Bool.and_eq_true, Bool.not_eq_true'] at h
    obtain ⟨vs, rfl, h₁⟩ := Spelled.mark hs
    obtain ⟨vs, rfl, h₂⟩ := Spelled.mark h₁
    obtain ⟨us, vs, rfl, hu, hv⟩ := Spelled.append h₂
    obtain ⟨vs, rfl, h₃⟩ := Spelled.mark hv
    obtain ⟨xs, vs, rfl, hx, hv⟩ := Spelled.append h₃
    obtain ⟨vs, rfl, h₄⟩ := Spelled.mark hv
    exact .ifElse (Expr.drawnAt e h.1.1.1 (Nat.zero_le 7) hu) (shown a h.1.1.2 hx) h.1.2
      (shown b h.2 h₄)
  | .whileLoop e a, ws, h, hs => by
    simp only [isWellFormed, Bool.and_eq_true] at h
    obtain ⟨vs, rfl, h₁⟩ := Spelled.mark hs
    obtain ⟨vs, rfl, h₂⟩ := Spelled.mark h₁
    obtain ⟨us, vs, rfl, hu, hv⟩ := Spelled.append h₂
    obtain ⟨vs, rfl, h₃⟩ := Spelled.mark hv
    exact .whileLoop (Expr.drawnAt e h.1 (Nat.zero_le 7) hu) (shown a h.2 h₃)
  | .doLoop body e, ws, h, hs => by
    simp only [isWellFormed, Bool.and_eq_true] at h
    obtain ⟨vs, rfl, h₁⟩ := Spelled.mark hs
    obtain ⟨vs, rfl, h₂⟩ := Spelled.mark h₁
    obtain ⟨us, vs, rfl, hu, hv⟩ := Spelled.append h₂
    obtain ⟨vs, rfl, h₃⟩ := Spelled.mark hv
    obtain ⟨vs, rfl, h₄⟩ := Spelled.mark h₃
    obtain ⟨vs, rfl, h₅⟩ := Spelled.mark h₄
    obtain ⟨xs, vs, rfl, hx, hv⟩ := Spelled.append h₅
    obtain ⟨vs, rfl, h₆⟩ := Spelled.mark hv
    rw [h₆.last]
    exact .doLoop (itemsShown body h.1 hu) (Expr.drawnAt e h.2 (Nat.zero_le 7) hx)
  | .forLoop i e u a, ws, h, hs => by
    simp only [isWellFormed, Bool.and_eq_true] at h
    obtain ⟨vs, rfl, h₁⟩ := Spelled.mark hs
    obtain ⟨vs, rfl, h₂⟩ := Spelled.mark h₁
    obtain ⟨us, vs, rfl, hu, hv⟩ := Spelled.append h₂
    obtain ⟨vs, rfl, h₃⟩ := Spelled.mark hv
    obtain ⟨xs, vs, rfl, hx, hv⟩ := Spelled.append h₃
    obtain ⟨vs, rfl, h₄⟩ := Spelled.mark hv
    obtain ⟨ys, vs, rfl, hy, hv⟩ := Spelled.append h₄
    obtain ⟨vs, rfl, h₅⟩ := Spelled.mark hv
    exact .forLoop (Assign.drawn h.1.1.1 hu) (Expr.drawnAt e h.1.1.2 (Nat.zero_le 7) hx)
      (Expr.drawnAt u h.1.2 (Nat.zero_le 7) hy) (shown a h.2 h₅)
  | .breakLoop, ws, _, hs => by
    obtain ⟨vs, rfl, h₁⟩ := Spelled.mark hs
    rw [h₁.last]
    exact .breakLoop
  | .continueLoop, ws, _, hs => by
    obtain ⟨vs, rfl, h₁⟩ := Spelled.mark hs
    rw [h₁.last]
    exact .continueLoop
  | .ret none, ws, _, hs => by
    obtain ⟨vs, rfl, h₁⟩ := Spelled.mark hs
    rw [h₁.last]
    exact .ret_none
  | .ret (some e), ws, h, hs => by
    obtain ⟨vs, rfl, h₁⟩ := Spelled.mark hs
    obtain ⟨us, vs, rfl, hu, hv⟩ := Spelled.append h₁
    rw [hv.last]
    exact .ret_some (Expr.drawnAt e h (Nat.zero_le 7) hu)
  | .call f es, ws, h, hs => by
    simp only [isWellFormed, Expr.isWellFormed, Bool.and_eq_true] at h
    obtain ⟨us, vs, rfl, hu, hv⟩ := Spelled.append hs
    rw [hv.last]
    obtain ⟨us, rfl, h₁⟩ := Spelled.word hu
    obtain ⟨us, rfl, h₂⟩ := Spelled.mark h₁
    obtain ⟨us, vs, rfl, hu, hv⟩ := Spelled.append h₂
    obtain ⟨wss, rfl, hwss⟩ := hu.withCommas
    rw [hv.last]
    exact .call (Expr.drawn_call h.1 (Expr.drawnAll es h.2 hwss))
  | .assign a, ws, h, hs => by
    obtain ⟨us, vs, rfl, hu, hv⟩ := Spelled.append hs
    rw [hv.last]
    exact .assign (Assign.drawn h hu)

theorem itemsShown : ∀ (ss : List Stmt) {ws : List (List Char)}, itemsWellFormed ss = true →
    Spelled (piecesAll ss) ws → ItemsShown ss ws
  | [], ws, _, hs => by
    rw [List.forall₂_nil_left_iff.mp hs]
    exact .nil
  | s :: ss, ws, h, hs => by
    obtain ⟨hitem, hrest⟩ := itemsWellFormed_cons h
    obtain ⟨us, vs, rfl, hu, hv⟩ := Spelled.append hs
    have htail := itemsShown ss hrest hv
    rcases hitem with ⟨v, rfl, hw⟩ | hw
    · obtain ⟨t, ht, hx⟩ := VarDecl.drawn hw hu
      refine .cons ht (.inl rfl) ?_ htail
      rw [ofItem, if_pos ht.is.rule, hx]
      rfl
    · obtain ⟨t, ht, hx, -⟩ := shown s hw hu
      refine .cons ht (.inr rfl) ?_ htail
      rw [ofItem, if_neg (by rw [ht.is.rule]; decide), hx]
      rfl

end

end Stmt

/-! ### Declarations -/

/-- A mark that may stand before a parameter. -/
theorem Param.drawn_mark {r : Rule} {s : String} (hr : r = .kwInherit ∨ r = .kwOut)
    (hbody : r.body = word s) {b : Bool} (hs : Spelled (if b then [.mark s] else []) ws) :
    ∃ o : Option Tree, Grows (.opt (.call r)) o.toList ws ∧ (∀ t ∈ o, t.rule? = some r) ∧
      o.isSome = b := by
  cases b with
  | false =>
    rw [List.forall₂_nil_left_iff.mp hs]
    exact ⟨none, .without, by simp, rfl⟩
  | true =>
    rw [Spelled.last hs]
    have hg : Grown r (.node r 0 0 [.token s.toList]) [s.toList] :=
      Grows.node (hbody ▸ .word s) (by rcases hr with rfl | rfl <;> rfl)
        (by rcases hr with rfl | rfl <;> decide)
    exact ⟨some _, (Grows.call hg).within, by simp [Tree.rule?], rfl⟩

/-- What is printed of a parameter is drawn. -/
theorem Param.drawn {p : Param} (h : p.isWellFormed = true) (hs : Spelled p.pieces ws) :
    Drawn .paramDecl Param.ofTree p ws := by
  simp only [isWellFormed, Bool.and_eq_true] at h
  obtain ⟨us, vs, rfl, hi, hv⟩ := Spelled.append hs
  obtain ⟨xs, vs, rfl, ho, hv⟩ := Spelled.append hv
  obtain ⟨vs, rfl, h₁⟩ := Spelled.word hv
  obtain ⟨vs, rfl, h₂⟩ := Spelled.mark h₁
  obtain ⟨i, hi, hir, hib⟩ := drawn_mark (.inl rfl) rfl hi
  obtain ⟨o, ho, hor, hob⟩ := drawn_mark (.inr rfl) rfl ho
  obtain ⟨n, hn, hname⟩ := Expr.grown_name h.1
  obtain ⟨ty, hty, htyv⟩ := Ty.drawn h.2 h₂
  have hbody := hi.seq (ho.seq ((Grows.call hn).item ((Grows.text ":".toList).item
    (Grows.call hty))))
  refine .node hbody rfl (by decide) ?_
  have hc : (Tree.node .paramDecl 0 0
      (i.toList ++ (o.toList ++ [n, .token ":".toList, ty]))).children =
      i.toList ++ (o.toList ++ [n, ty]) := by
    rw [children, parts, nodes_append, nodes_append,
      nodes_of_rule fun t ht => hir t (Option.mem_toList.mp ht),
      nodes_of_rule fun t ht => hor t (Option.mem_toList.mp ht), nodes_cons_of_rule hn.is.rule,
      nodes_cons_token, nodes_cons_of_rule hty.is.rule, nodes_nil]
  rw [ofTree_eq hc hir hor hn.is.rule hty.is.rule, htyv, hname, hib, hob]
  rfl

/-- What is printed of the parameters of a function is drawn, if there are any. -/
theorem Param.drawn_list {ps : List Param} (h : ps.all Param.isWellFormed = true)
    (hs : Spelled (Piece.withCommas (ps.map Param.pieces)) ws) :
    ∃ o : Option Tree, Grows (.opt (.call .paramList)) o.toList ws ∧
      (∀ t ∈ o, t.rule? = some .paramList) ∧ Param.listOf o = .ok ps := by
  obtain ⟨wss, rfl, hwss⟩ := hs.withCommas
  cases ps with
  | nil =>
    rw [List.forall₂_nil_left_iff.mp hwss]
    exact ⟨none, .without, by simp, rfl⟩
  | cons p ps =>
    have hall : List.Forall₂ (Drawn .paramDecl Param.ofTree) (p :: ps) wss := by
      rw [List.forall₂_map_left_iff] at hwss
      rw [List.all_eq_true] at h
      exact ((List.forall₂_and_left _ _).mpr ⟨h, hwss⟩).imp fun q ws hq => drawn hq.1 hq.2
    obtain ⟨ts, hts, hm⟩ := Drawn.all hall
    have hrules := Grown.rules hts
    have hne : ts ≠ [] := by
      rintro rfl
      cases hm
    have hg := Grows.node (r := .paramList) (.commaList hts hne) rfl (by decide)
    have hc : (Tree.node .paramList 0 0 (separated ts)).children = ts := nodes_separated hrules
    refine ⟨some _, (Grows.call hg).within, by simp [Tree.rule?], ?_⟩
    show Param.listOfTree _ = _
    rw [listOfTree_eq (by rwa [hc]), hc, hm]

/-- What is printed of the parent of a function is drawn, if it has one. -/
theorem FuncDecl.drawn_parent {parent : Option String}
    (hs : Spelled (match parent with
      | none => []
      | some parent => [.mark "inherit", .word parent.toList]) ws)
    (h : parent.all (fun parent => isName parent.toList) = true) :
    ∃ (o : Option Tree) (ts : List Tree),
      Grows (.opt (.seq (word "inherit") (.call .identifier))) ts ws ∧ nodes ts = o.toList ∧
      (∀ t ∈ o, t.rule? = some .identifier) ∧ o.map Tree.string = parent := by
  cases parent with
  | none =>
    rw [List.forall₂_nil_left_iff.mp hs]
    exact ⟨none, [], .without, rfl, by simp, rfl⟩
  | some s =>
    obtain ⟨vs, rfl, h₁⟩ := Spelled.mark hs
    obtain ⟨vs, rfl, h₂⟩ := Spelled.word h₁
    rw [List.forall₂_nil_left_iff.mp h₂]
    obtain ⟨n, hn, hname⟩ := Expr.grown_name h
    refine ⟨some n, _, ((Grows.word "inherit").item (Grows.call hn)).within, ?_, ?_, ?_⟩
    · rw [nodes_cons_token, nodes_cons_of_rule hn.is.rule]
      rfl
    · intro t ht
      obtain rfl := Option.mem_some.mp ht
      exact hn.is.rule
    · rw [Option.map_some, hname]

/-- What is printed of a function is drawn. -/
theorem FuncDecl.drawn {f : FuncDecl} (h : f.isWellFormed = true) (hs : Spelled f.pieces ws) :
    Drawn .funcDecl FuncDecl.ofTree f ws := by
  simp only [isWellFormed, Bool.and_eq_true] at h
  obtain ⟨vs, rfl, h₁⟩ := Spelled.word hs
  obtain ⟨vs, rfl, h₂⟩ := Spelled.mark h₁
  obtain ⟨vs, rfl, h₃⟩ := Spelled.mark h₂
  obtain ⟨us, vs, rfl, hty, hv⟩ := Spelled.append h₃
  obtain ⟨vs, rfl, h₄⟩ := Spelled.mark hv
  obtain ⟨xs, vs, rfl, hps, hv⟩ := Spelled.append h₄
  obtain ⟨vs, rfl, h₅⟩ := Spelled.mark hv
  obtain ⟨ys, vs, rfl, hpar, hv⟩ := Spelled.append h₅
  obtain ⟨vs, rfl, h₆⟩ := Spelled.mark hv
  obtain ⟨zs, vs, rfl, hbody, hv⟩ := Spelled.append h₆
  rw [hv.last]
  obtain ⟨n, hn, hname⟩ := Expr.grown_name h.1.1.1.1
  obtain ⟨ty, hty, htyv⟩ := Ty.drawn_returned h.1.1.1.2 hty
  obtain ⟨ps, hps, hpsr, hpsv⟩ := Param.drawn_list h.1.1.2 hps
  obtain ⟨o, ts, hts, hnodes, hor, hparent⟩ := drawn_parent hpar h.1.2
  obtain ⟨bs, hb, hbv⟩ := (Stmt.itemsShown f.body h.2 hbody).block
  generalize Tree.node .block 0 0 (.token "\x7b".toList :: (bs ++ [.token "\x7d".toList])) = b
    at hb hbv
  have hgrows := (Grows.call hn).item ((Grows.text ":".toList).item ((Grows.word "function").item
    ((Grows.call hty).item ((Grows.text "(".toList).item (hps.seq ((Grows.text ")".toList).item
      (hts.seq (Grows.call hb))))))))
  refine .node hgrows rfl (by decide) ?_
  have hc : (Tree.node .funcDecl 0 0 (n :: .token ":".toList :: .token "function".toList :: ty ::
      .token "(".toList :: (ps.toList ++ .token ")".toList :: (ts ++ [b])))).children =
      n :: ty :: (ps.toList ++ (o.toList ++ [b])) := by
    rw [children, parts, nodes_cons_of_rule hn.is.rule, nodes_cons_token, nodes_cons_token,
      nodes_cons_of_rule hty.is.rule, nodes_cons_token, nodes_append,
      nodes_of_rule fun t ht => hpsr t (Option.mem_toList.mp ht), nodes_cons_token, nodes_append,
      hnodes, nodes_cons_of_rule hb.is.rule, nodes_nil]
  rw [ofTree_eq hc hn.is.rule hty.is.rule hpsr hor hb.is.rule, htyv, hpsv, hbv, hname, hparent]
  rfl

theorem Decl.drawn_func {f : FuncDecl} (h : Drawn .funcDecl FuncDecl.ofTree f ws) :
    Drawn .declaration Decl.ofTree [.func f] ws := by
  obtain ⟨t, ht, hv⟩ := h
  have hc : (Tree.node .declaration 0 0 [t]).children = [t] := nodes_cons_of_rule ht.is.rule []
  exact .node (Grows.call ht).left rfl (by decide)
    ((ofTree_eq hc ht.is.rule (by decide)).trans (by rw [hv]; rfl))

/-- What is printed of a declaration is drawn. -/
theorem Decl.drawn {d : Decl} (h : d.isWellFormed = true) (hs : Spelled d.pieces ws) :
    Drawn .declaration Decl.ofTree [d] ws := by
  cases d with
  | func f => exact drawn_func (FuncDecl.drawn h hs)
  | var v =>
    obtain ⟨t, ht, hv⟩ := VarDecl.drawn h hs
    have hc : (Tree.node .declaration 0 0 [t]).children = [t] := nodes_cons_of_rule ht.is.rule []
    exact .node (Grows.call ht).right rfl (by decide)
      ((ofTree_eq hc ht.is.rule (by decide)).trans (by rw [hv]; rfl))

/-- Declarations one after the other. -/
theorem Decl.drawn_all {ds : List Decl} (h : ∀ d ∈ ds, d.isWellFormed = true)
    (hs : Spelled (ds.flatMap Decl.pieces) ws) :
    ∃ ts, Grows (.star (.call .declaration)) ts ws ∧ (∀ t ∈ ts, t.rule? = some .declaration) ∧
      ts.mapM Decl.ofTree = .ok (ds.map fun d => [d]) := by
  induction ds generalizing ws with
  | nil =>
    rw [List.forall₂_nil_left_iff.mp hs]
    exact ⟨[], .nil, by simp, rfl⟩
  | cons d ds ih =>
    rw [List.flatMap_cons] at hs
    obtain ⟨us, vs, rfl, hu, hv⟩ := Spelled.append hs
    obtain ⟨t, ht, hx⟩ := Decl.drawn (h d List.mem_cons_self) hu
    obtain ⟨ts, hts, hr, hm⟩ := ih (fun d hd => h d (List.mem_cons_of_mem _ hd)) hv
    refine ⟨t :: ts, (Grows.call ht).cons hts, ?_, by rw [List.mapM_cons, hx, hm]; rfl⟩
    simpa [ht.is.rule] using hr

/-- **What is printed of a well-formed program is drawn.** -/
theorem Program.drawn {p : Program} (h : p.isWellFormed = true) (hs : Spelled p.pieces ws) :
    Drawn .program Program.ofTree p ws := by
  simp only [isWellFormed, Bool.and_eq_true, Bool.not_eq_true', List.isEmpty_eq_false_iff,
    List.all_eq_true] at h
  obtain ⟨decls⟩ := p
  obtain ⟨d, ds, rfl⟩ := List.exists_cons_of_ne_nil h.1
  obtain ⟨us, vs, rfl, hu, hv⟩ := Spelled.append hs
  obtain ⟨t, ht, hx⟩ := Decl.drawn (h.2 d List.mem_cons_self) hu
  obtain ⟨ts, hts, hrest, hm⟩ :=
    Decl.drawn_all (fun d hd => h.2 d (List.mem_cons_of_mem _ hd)) hv
  have hr : ∀ u ∈ t :: ts, u.rule? = some .declaration := by simpa [ht.is.rule] using hrest
  refine ⟨_, Grown.program ((Grows.call ht).item hts), ?_⟩
  rw [ofTree_eq (children_program hr) hr rfl, List.mapM_cons, hx, hm]
  show Except.ok (Program.mk ([d] ++ (ds.map fun d => [d]).flatten)) = _
  rw [← List.flatMap_def, List.flatMap_singleton', List.singleton_append]

/-- A program of one declaration. -/
theorem Program.drawn_decl {ds : List Decl} (h : Drawn .declaration Decl.ofTree ds ws) :
    Drawn .program Program.ofTree ⟨ds⟩ ws := by
  obtain ⟨t, ht, hv⟩ := h
  have hplus := (Grows.call ht).item (Grows.nil (a := .call .declaration))
  rw [List.append_nil] at hplus
  have hr : ∀ d ∈ [t], d.rule? = some .declaration := List.forall_mem_singleton.mpr ht.is.rule
  refine ⟨_, Grown.program hplus, ?_⟩
  rw [ofTree_eq (children_program hr) hr rfl, List.mapM_cons, hv]
  show Except.ok (Program.mk ([ds] : List (List Decl)).flatten) = _
  rw [List.flatten_singleton]

/-- A program of one group of variables. -/
theorem Program.grown_variables {t : Tree} (ht : Grown .varDecl t ws) :
    ∃ p, Grown .program p ws ∧
      Program.ofTree p = (fun vs => ⟨vs.map .var⟩) <$> VarDecl.ofGroup t := by
  have hdecl : Grown .declaration (.node .declaration 0 0 [t]) ws :=
    Grows.node (r := .declaration) (Grows.call ht).right rfl (by decide)
  have hc : (Tree.node .declaration 0 0 [t]).children = [t] := nodes_cons_of_rule ht.is.rule []
  have hplus := (Grows.call hdecl).item (Grows.nil (a := .call .declaration))
  rw [List.append_nil] at hplus
  have hr : ∀ d ∈ [Tree.node .declaration 0 0 [t]], d.rule? = some .declaration := by
    simp [Tree.rule?]
  refine ⟨_, Grown.program hplus, ?_⟩
  rw [ofTree_eq (children_program hr) hr rfl, List.mapM_cons,
    Decl.ofTree_eq hc ht.is.rule (by decide)]
  cases VarDecl.ofGroup t with
  | error f => rfl
  | ok vs =>
    show Except.ok (Program.mk ([vs.map .var] : List (List Decl)).flatten) = _
    rw [List.flatten_singleton]
    rfl

end Mt22
