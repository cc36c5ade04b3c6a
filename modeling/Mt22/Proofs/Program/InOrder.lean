import Mt22.Proofs.Program.Blame
import Mt22.Proofs.Program.SettleDecl
import Mt22.Proofs.Tree.Census

/-!
# Children in their places

Making a program of a tree checks where the children of its nodes stand.  This says how far the
check goes, for trees that are drawn by hand too: below a declaration, the children that are
examined stand as the grammar has them, and where one does not, the first that does not is reported,
unless something else is wrong before it (`Program.reports_misplaced`).

Not all children are examined.  A name, a number, a keyword or an operator is taken by its text or
by its rule alone, and nothing is promised about nodes below it; nor about what follows the child
that a type or a literal is, or the names and dimensions of a list; nor that a list has an item.  So
a tree that gives a program need not be one of the grammar (`Program.ofTree_loose`).
-/

namespace Mt22

open Mt22.Tree Mt22.Visit

variable {t : Tree}

namespace Tree

/-- A node is examined on the way down from another. -/
inductive Sees : Tree → Tree → Prop
  | self (t : Tree) : Sees t t
  | child {t c u : Tree} : c ∈ t.examined → Sees c u → Sees t u

/-- The children of a node that are examined stand as its rule has them, and a cell has an index. -/
def InOrder (t : Tree) : Prop :=
  ∃ r, t.rule? = some r ∧ (r.Permits t.examined ∨ r.isOpenList = true ∧ t.examined = []) ∧
    (r = .arrayCell → ∀ a ∈ t.examined, a.rule? = some .arguments → a.examined ≠ [])

/-- All nodes that are examined below a node are in order. -/
def Ordered (t : Tree) : Prop := ∀ u, t.Sees u → u.InOrder

/-- The children of the root are declarations and the end of input, and every node that is examined
below a declaration has those children that its rule has, as far as they are examined themselves. -/
def InPlace (t : Tree) : Prop :=
  ∃ ds e, t.children = ds ++ [e] ∧ (∀ d ∈ ds, d.rule? = some .declaration) ∧
    e.rule? = some .eoi ∧ ∀ d ∈ ds, d.Ordered

end Tree

/-! ### What is permitted -/

namespace Rule

variable {r q : Rule} {cs : List Tree}

/-- The rules of nodes that can be examined. -/
def isKnown (r : Rule) : Bool := r.isAtomic || (r.demand.isSyntax && r.kind != .token)

/-- A node that can be examined asks for such nodes only. -/
theorem isKnown_of_calls (hr : r.isKnown = true) (hq : q ∈ r.demand.calls) : q.isKnown = true := by
  have hall : ∀ r ∈ Rule.all, r.isKnown = true → ∀ q ∈ r.demand.calls, q.isKnown = true := by
    decide +kernel
  exact hall r r.mem_all hr q hq

theorem isSyntax_demand (hr : r.isKnown = true) : r.demand.isSyntax = true := by
  have hall : ∀ r ∈ Rule.all, r.isKnown = true → r.demand.isSyntax = true := by decide +kernel
  exact hall r r.mem_all hr

/-- What a node asks of its children is what the grammar permits, or a list has no item. -/
theorem admits_demand_iff (hr : r.isKnown = true) (hcs : r.isAtomic = true → cs = []) :
    r.demand.Admits cs ↔
      r.Permits cs ∨ (r.isOpenList = true ∨ r = .dimensions) ∧ cs = [] := by
  by_cases hatom : r.isAtomic = true
  · have hbody : r.Permits [] := by
      have hall : ∀ r ∈ Rule.all, r.isAtomic = true → r.kind ≠ .token → r.body.isBare = true := by
        decide +kernel
      rw [Permits]
      split
      · rfl
      · next hk => exact (Peg.admits_nil_iff _).mpr (hall r r.mem_all hatom hk)
    rw [demand, if_pos hatom, hcs hatom]
    exact iff_of_true (Peg.admits_start.mpr rfl) (.inl hbody)
  · have hk : r.kind ≠ .token := by
      simp only [isKnown, hatom, Bool.false_or, Bool.and_eq_true, bne_iff_ne] at hr
      exact hr.2
    rw [demand, if_neg hatom, Permits, if_neg hk]
    split
    · next hlist =>
      rw [Peg.admits_opt, or_comm]
      simp only [Bool.or_eq_true, decide_eq_true_eq] at hlist
      simp [hlist]
    · next hlist =>
      simp only [Bool.or_eq_true, decide_eq_true_eq] at hlist
      simp [hlist]

end Rule

/-- The rules of nodes that are admitted. -/
theorem Peg.Admits.mem_calls {e : Peg} {cs : List Tree} {c : Tree} {q : Rule} (h : e.Admits cs)
    (hc : c ∈ cs) (hq : c.rule? = some q) : q ∈ e.calls := by
  obtain ⟨ts, rfl, hts⟩ := h
  exact hts.mem_calls c (List.mem_of_mem_filter hc) q hq

/-- Two nodes in turn. -/
theorem Peg.Admits.pair {e : Peg} {cs : List Tree} {a b : Rule} (h : e.Admits cs)
    (he : e.isFinite = true) (hkids : e.kids = [[a, b]]) :
    ∃ x y, cs = [x, y] ∧ x.rule? = some a ∧ y.rule? = some b := by
  obtain ⟨ts, rfl, hts⟩ := h
  obtain ⟨rs, hrs, hmap⟩ := hts.kids he
  rw [hkids, List.mem_singleton] at hrs
  subst hrs
  obtain ⟨x, cs, hcs, hx, hmap⟩ := List.map_eq_cons_iff.mp hmap
  obtain ⟨y, rfl, hy⟩ := List.map_eq_singleton_iff.mp hmap
  exact ⟨x, y, hcs, hx, hy⟩

theorem Peg.admits_star_call {q : Rule} {cs : List Tree} :
    (Peg.star (.call q)).Admits cs ↔ ∀ c ∈ cs, c.rule? = some q := by
  induction cs with
  | nil => exact iff_of_true ((admits_nil_iff _).mpr rfl) (by simp)
  | cons c cs ih =>
    rw [admits_star_cons, List.forall_mem_cons]
    constructor
    · rintro ⟨xs, ys, rfl, hx, hy⟩
      obtain ⟨d, hd, hr⟩ := admits_call.mp hx
      obtain ⟨rfl, rfl⟩ := List.cons.inj hd
      exact ⟨hr, ih.mp hy⟩
    · rintro ⟨hc, hcs⟩
      exact ⟨[], cs, rfl, admits_call.mpr ⟨c, rfl, hc⟩, ih.mpr hcs⟩

theorem Peg.admits_topLevel {cs : List Tree} : Peg.topLevel.Admits cs ↔
    ∃ ds e, cs = ds ++ [e] ∧ (∀ d ∈ ds, d.rule? = some .declaration) ∧ e.rule? = some .eoi := by
  rw [topLevel, admits_seq]
  constructor
  · rintro ⟨ds, es, rfl, hds, hes⟩
    obtain ⟨e, rfl, he⟩ := admits_call.mp hes
    exact ⟨ds, e, rfl, admits_star_call.mp hds, he⟩
  · rintro ⟨ds, e, rfl, hds, he⟩
    exact ⟨ds, [e], rfl, admits_star_call.mpr hds, admits_call.mpr ⟨e, rfl, he⟩⟩

/-! ### Trees in order -/

namespace Tree

variable {r : Rule} {c : Tree} {q : List Nat} {f : Fault}

/-- Where nothing is out of place, all nodes stand as is asked. -/
theorem admits_of_not_strays {e : Peg} {cs : List Tree} (he : e.isSyntax = true)
    (h : ∀ k f, ¬ t.Strays e cs k f) : e.Admits cs := by
  by_contra hnot
  obtain ⟨done, left, rfl, hb⟩ := Peg.exists_breaks he hnot
  obtain ⟨v, hv⟩ : ∃ v : Violation, v.found? = some (left.head?.bind rule?) := by
    cases left.head?.bind rule? with
    | none => exact ⟨.exhausted, rfl⟩
    | some q => exact ⟨.trailing q, rfl⟩
  exact h _ _ (.mk rfl hb hv)

/-- A node that can be examined, and below which nothing is out of place. -/
structure Sound (t : Tree) : Prop where
  known : ∃ r, t.rule? = some r ∧ r.isKnown = true
  item : t.rule? = some .dimensions → t.examined ≠ []
  placed : ∀ q f, ¬ Along Misplaces t q f

namespace Sound

theorem admits (h : t.Sound) (ht : t.rule? = some r) :
    r.isKnown = true ∧ r.demand.Admits t.examined := by
  obtain ⟨r', hr, hknown⟩ := h.known
  obtain rfl := Option.some.inj (ht.symm.trans hr)
  refine ⟨hknown, admits_of_not_strays (t := t) (Rule.isSyntax_demand hknown) fun k f hs => ?_⟩
  exact h.placed _ f (.self (.child ht hs))

theorem not_lacks (h : t.Sound) : ¬ t.Lacks q f := fun hl => h.placed q f (.self (.item hl))

theorem child (h : t.Sound) (hc : c ∈ t.examined) : c.Sound := by
  obtain ⟨r, ht, -⟩ := h.known
  obtain ⟨hknown, hadmits⟩ := h.admits ht
  obtain ⟨q, hq⟩ : ∃ q, c.rule? = some q := by
    have hnode := isNode_of_mem_children (mem_children_of_examined hc)
    cases c with
    | token | trivia => cases hnode
    | node q => exact ⟨q, rfl⟩
  have hcalls := hadmits.mem_calls hc hq
  obtain ⟨i, hi⟩ := List.mem_iff_getElem?.mp hc
  refine ⟨⟨q, hq, Rule.isKnown_of_calls hknown hcalls⟩, fun hdim hnil => ?_, fun p f hf => ?_⟩
  · -- dimensions are asked for an item by the type that they belong to
    obtain rfl := Option.some.inj (hq.symm.trans hdim)
    have hall : ∀ r ∈ Rule.all, r.isKnown = true → .dimensions ∈ r.demand.calls →
        r = .arrayType := by decide +kernel
    obtain rfl := hall r r.mem_all hknown hcalls
    obtain ⟨d, p, hcs, -, hp⟩ := hadmits.pair rfl rfl
    rw [hcs] at hc
    rcases List.mem_pair.mp hc with rfl | rfl
    · rw [examined_of_isWhole ht rfl] at hcs
      exact h.not_lacks (.dimensions ht hcs hdim hnil)
    · cases hdim.symm.trans hp
  · exact h.placed _ f (.child hi hf)

theorem inOrder (h : t.Sound) : t.InOrder := by
  obtain ⟨r, ht, -⟩ := h.known
  obtain ⟨hknown, hadmits⟩ := h.admits ht
  refine ⟨r, ht, ?_, ?_⟩
  · rcases (Rule.admits_demand_iff hknown (examined_of_isAtomic ht)).mp hadmits with
      hpermits | ⟨hlist | rfl, hnil⟩
    · exact .inl hpermits
    · exact .inr ⟨hlist, hnil⟩
    · exact absurd hnil (h.item ht)
  · rintro rfl a ha har hnil
    obtain ⟨n, a', hcs, hn, -⟩ := hadmits.pair rfl rfl
    rw [hcs] at ha
    rw [examined_of_isWhole har rfl] at hnil
    rw [examined_of_isWhole ht rfl] at hcs
    rcases List.mem_pair.mp ha with rfl | rfl
    · cases har.symm.trans hn
    · exact h.not_lacks (.indices ht hcs har hnil)

theorem ordered (h : t.Sound) : t.Ordered := by
  intro u hu
  induction hu with
  | self => exact h.inOrder
  | child hc _ ih => exact ih (h.child hc)

end Sound

theorem InOrder.admits (h : t.InOrder) (ht : t.rule? = some r) (hr : r.isKnown = true) :
    r.demand.Admits t.examined := by
  obtain ⟨r', hr', hcase, -⟩ := h
  obtain rfl := Option.some.inj (ht.symm.trans hr')
  refine (Rule.admits_demand_iff hr (examined_of_isAtomic ht)).mpr (hcase.imp_right ?_)
  exact fun hlist => ⟨.inl hlist.1, hlist.2⟩

theorem Ordered.child (h : t.Ordered) (hc : c ∈ t.examined) : c.Ordered :=
  fun u hu => h u (.child hc hu)

theorem Ordered.not_lacks (h : t.Ordered) : ¬ t.Lacks q f := by
  intro hl
  cases hl with
  | @dimensions d cs ht hc hd hnone =>
    have hmem : d ∈ t.examined := by
      rw [examined_of_isWhole ht rfl, hc]
      exact List.mem_cons_self
    obtain ⟨r, hr, hcase, -⟩ := h.child hmem d (.self d)
    obtain rfl := Option.some.inj (hd.symm.trans hr)
    rcases hcase with hpermits | ⟨hlist, -⟩
    · rw [hnone, Rule.Permits, if_neg (by decide), Peg.admits_nil_iff] at hpermits
      cases hpermits
    · cases hlist
  | @indices n a cs ht hc ha hnone =>
    obtain ⟨r, hr, -, hcell⟩ := h t (.self t)
    obtain rfl := Option.some.inj (ht.symm.trans hr)
    refine hcell rfl a ?_ ha ?_
    · rw [examined_of_isWhole ht rfl, hc]
      exact List.mem_cons_of_mem _ List.mem_cons_self
    · rw [examined_of_isWhole ha rfl, hnone]

/-- In a node that is in order throughout, nothing is out of place. -/
theorem Ordered.not_misplaces (h : t.Ordered) (hr : ∃ r, t.rule? = some r ∧ r.isKnown = true) :
    ¬ Along Misplaces t q f := by
  intro hf
  induction hf with
  | @self t q f hf =>
    obtain ⟨r, ht, hknown⟩ := hr
    cases hf with
    | child ht' hstrays =>
      obtain rfl := Option.some.inj (ht.symm.trans ht')
      exact not_strays_of_admits ((h t (.self t)).admits ht hknown) hstrays
    | item hl => exact h.not_lacks hl
  | @child t c i q f hc _ ih =>
    obtain ⟨r, ht, hknown⟩ := hr
    have hmem := List.mem_of_getElem? hc
    have hordered := h.child hmem
    obtain ⟨q, hq, -⟩ := hordered c (.self c)
    have hcalls := ((h t (.self t)).admits ht hknown).mem_calls hmem hq
    exact ih hordered ⟨q, hq, Rule.isKnown_of_calls hknown hcalls⟩

/-- **A tree is in place exactly if nothing in it is out of place.** -/
theorem inPlace_iff (t : Tree) : t.InPlace ↔ ¬ ∃ q f, t.Misplaced q f := by
  constructor
  · rintro ⟨ds, e, hc, hds, he, hordered⟩ ⟨q, f, hf⟩
    cases hf with
    | root hstrays =>
      exact not_strays_of_admits (Peg.admits_topLevel.mpr ⟨ds, e, hc, hds, he⟩) hstrays
    | @below d i q f hd hf =>
      have hmem := List.mem_of_getElem? hd
      rw [hc, List.mem_append, List.mem_singleton] at hmem
      rcases hmem with hmem | rfl
      · exact (hordered d hmem).not_misplaces ⟨_, hds d hmem, rfl⟩ hf
      · exact none_of_isAtomic he rfl _ _ (raises_iff.mpr (.inl hf))
  · intro hnone
    have hadmits : Peg.topLevel.Admits t.children :=
      admits_of_not_strays (t := t) rfl fun k f hs => hnone ⟨_, f, .root hs⟩
    obtain ⟨ds, e, hc, hds, he⟩ := Peg.admits_topLevel.mp hadmits
    refine ⟨ds, e, hc, hds, he, fun d hd => Sound.ordered ⟨⟨_, hds d hd, rfl⟩, ?_, ?_⟩⟩
    · intro hdim
      cases (hds d hd).symm.trans hdim
    · intro q f hf
      obtain ⟨i, hi⟩ := List.mem_iff_getElem?.mp (hc ▸ List.mem_append_left [e] hd)
      exact hnone ⟨_, f, .below hi hf⟩

/-! ### One kind of fault at a place -/

theorem Raises.ne_nil (h : t.Raises q f) : q ≠ [] := by
  cases h with
  | self h =>
    rcases h with h | h
    · cases h with
      | child => exact List.cons_ne_nil _ _
      | item h => cases h <;> exact List.cons_ne_nil _ _
    · cases h <;> exact List.cons_ne_nil _ _
  | child => exact List.cons_ne_nil _ _

/-- A fault that is found when a child has been read is not found in the child. -/
theorem Special.not_raises {p : List Nat} {i : Nat} {g : Fault} (h : t.Special (i :: p) f)
    (hc : t.examined[i]? = some c) : ¬ c.Raises p g := by
  intro hp
  obtain ⟨j, d, hq, hd, hlate⟩ := h.late
  obtain ⟨rfl, rfl⟩ := List.cons.inj hq
  obtain rfl := Option.some.inj (hc.symm.trans hd)
  exact List.lt_irrefl _ (hlate _ g hp)

/-- Something is out of place, or something else is wrong, but not both at one place. -/
theorem not_errs_of_misplaces {g : Fault} (h : Along Misplaces t q f) : ¬ Along Errs t q g := by
  induction h with
  | @self t q f h =>
    intro hg
    cases h with
    | child =>
      cases hg with
      | self hg =>
        obtain ⟨i, c, hq, -⟩ := Special.late (.inr hg)
        cases (List.cons.inj hq).2
      | child _ hg => exact Raises.ne_nil (raises_iff.mpr (.inr hg)) rfl
    | item hl =>
      cases hg with
      | self hg => exact hl.not_errs hg
      | child hc hg => exact Special.not_raises (.inl hl) hc (raises_iff.mpr (.inr hg))
  | child hc h ih =>
    intro hg
    cases hg with
    | self hg => exact Special.not_raises (.inr hg) hc (raises_iff.mpr (.inl h))
    | child hc' hg =>
      obtain rfl := Option.some.inj (hc.symm.trans hc')
      exact ih hg

theorem not_mistaken_of_misplaced {g : Fault} (h : t.Misplaced q f) : ¬ t.Mistaken q g := by
  rintro ⟨hd, hg⟩
  cases h with
  | root => exact Raises.ne_nil (raises_iff.mpr (.inr hg)) rfl
  | below hd' h =>
    obtain rfl := Option.some.inj (hd.symm.trans hd')
    exact not_errs_of_misplaces h hg

/-! ### The node at fault -/

/-- A fault that is found below a node is one of a node below it. -/
theorem Along.exists_within {P : Tree → Faults} (h : Along P t q f) :
    ∃ u p, u.Within t ∧ P u p f := by
  induction h with
  | self h => exact ⟨_, _, .self _, h⟩
  | child hc _ ih =>
    obtain ⟨u, p, hu, hp⟩ := ih
    exact ⟨u, p, .child (mem_children_of_examined (List.mem_of_getElem? hc)) hu, hp⟩

/-- A node that has a child out of place is at fault itself. -/
theorem Misplaces.exists_shape (h : t.Misplaces q f) : ∃ v, f = .shape t v := by
  cases h with
  | child _ hstrays =>
    cases hstrays with
    | mk => exact ⟨_, rfl⟩
  | item hl => cases hl <;> exact ⟨_, rfl⟩

theorem Mistaken.exists_errs (h : t.Mistaken q f) :
    ∃ (u : Tree) (p : List Nat), u.Within t ∧ u.Errs p f := by
  obtain ⟨hd, hf⟩ := h
  obtain ⟨u, p, hu, hp⟩ := hf.exists_within
  exact ⟨u, p, .child (List.mem_of_getElem? hd) hu, hp⟩

theorem Misplaced.exists_shape (h : t.Misplaced q f) : ∃ u v, u.Within t ∧ f = .shape u v := by
  cases h with
  | root hstrays =>
    cases hstrays with
    | mk => exact ⟨t, _, .self t, rfl⟩
  | below hd hf =>
    obtain ⟨u, p, hu, hp⟩ := hf.exists_within
    obtain ⟨v, hv⟩ := hp.exists_shape
    exact ⟨u, v, .child (List.mem_of_getElem? hd) hu, hv⟩

end Tree

/-! ### Trees that are none of the grammar -/

namespace Tree

/-- A node of a rule whose last child is one that only programs have. -/
def loose (r : Rule) (ts : List Tree) : Tree := .node r 0 0 (ts ++ [.node .eoi 0 0 []])

def looseWord (r : Rule) (s : String) : Tree := loose r [.token s.toList]

/-- An operand as an expression of a tier. -/
def raised (k : Nat) (t : Tree) : Tree :=
  (List.range' k (8 - k)).foldr (fun i u => .node (Expr.tierRule i) 0 0 [u]) t

/-- The expression `!-1 * 1.5 + "s" && true == false :: x`. -/
def looseExpr : Tree :=
  let boolean (r : Rule) (s : String) := loose .literal [loose .boolLit [looseWord r s]]
  let string := loose .literal [loose .strLit [looseWord .strBody "s"]]
  let float := loose .literal [looseWord .floatLit "1.5"]
  let negated : Tree :=
    .node .negExpr 0 0 [looseWord .negOp "-", raised 6 (loose .literal [looseWord .intLit "1"])]
  let inverted : Tree :=
    .node .notExpr 0 0 [looseWord .notOp "!", .node .notExpr 0 0 [negated]]
  let product : Tree := .node .multiplicative 0 0 [inverted, looseWord .mulOp "*", raised 5 float]
  let sum : Tree := .node .additive 0 0 [product, looseWord .addOp "+", raised 4 string]
  let both : Tree :=
    .node .logical 0 0 [sum, looseWord .logicOp "&&", raised 3 (boolean .kwTrue "true")]
  let equal : Tree :=
    .node .relational 0 0 [both, looseWord .relOp "==", raised 2 (boolean .kwFalse "false")]
  .node .expression 0 0 [equal, looseWord .concatOp "::", raised 1 (looseWord .identifier "x")]

/-- A type of one keyword. -/
def loosePrim (r : Rule) : Tree := loose .varType [loose .primType [loose r []]]

def looseArray : Tree :=
  let dimensions := loose .dimensions [looseWord .intLit "2"]
  loose .varType [.node .arrayType 0 0 [dimensions, loose .primType [loose .kwInteger []]]]

/-- Parameters of all types. -/
def looseParams : Tree :=
  let param (marks : List Rule) (ty : Tree) : Tree :=
    .node .paramDecl 0 0 (marks.map (loose · []) ++ [looseWord .identifier "a", ty])
  .node .paramList 0 0 [param [.kwInherit, .kwOut] (loosePrim .kwFloat),
    param [] (loosePrim .kwBoolean), param [] (loosePrim .kwString), param [] looseArray]

/-- A variable with a value, a group without names and values, a call without arguments in a list of
arguments, and two statements that are a keyword. -/
def looseBlock : Tree :=
  let auto := loose .varType [loose .kwAuto []]
  let call : Tree := .node .funcCall 0 0 [looseWord .identifier "f", .node .arguments 0 0 []]
  .node .block 0 0 [
    .node .varDecl 0 0 [loose .nameList [looseWord .identifier "x"], auto,
      .node .initializers 0 0 [looseExpr]],
    .node .varDecl 0 0 [.node .nameList 0 0 [], auto, .node .initializers 0 0 []],
    .node .statement 0 0 [.node .callStmt 0 0 [call]],
    .node .statement 0 0 [loose .breakStmt []],
    .node .statement 0 0 [loose .continueStmt []]]

/-- Two functions, with a child too many wherever one is passed over and with lists that have no
item. -/
def looseProgram : Tree :=
  let function (params : Tree) : Tree :=
    .node .declaration 0 0 [.node .funcDecl 0 0 [looseWord .identifier "f",
      loose .funcType [loose .kwVoid []], params, looseBlock]]
  .node .program 0 0 [function looseParams, function (.node .paramList 0 0 []), loose .eoi []]

theorem exists_ofTree_looseProgram : ∃ p, Program.ofTree looseProgram = .ok p :=
  exists_of_isOk (by decide +kernel)

end Tree

namespace Rule

variable {r q : Rule} {cs : List Tree}

theorem not_permits_of_calls {c : Tree} (hc : c ∈ cs) (hq : c.rule? = some q)
    (h : q ∉ r.body.calls) : ¬ r.Permits cs := by
  rw [Permits]
  split
  · rintro rfl
    cases hc
  · rintro ⟨ts, rfl, hts⟩
    exact h (hts.mem_calls c (List.mem_of_mem_filter hc) q hq)

theorem not_permits_of_kids (hk : r.kind ≠ .token) (hf : r.body.isFinite = true)
    (h : ∀ rs ∈ r.body.kids, cs.map rule? ≠ rs.map some) : ¬ r.Permits cs := by
  rw [Permits, if_neg hk]
  rintro ⟨ts, rfl, hts⟩
  obtain ⟨rs, hrs, heq⟩ := hts.kids hf
  exact h rs hrs heq

/-- A list of the grammar has an item. -/
theorem not_permits_nil (hr : r.isOpenList = true) : ¬ r.Permits [] := by
  have hitem : ∀ {q ts}, nodes ts = [] → ¬ (Peg.commaList (.call q)).Fits ts :=
    fun hnil hts => hts.commaList.1 hnil
  cases r with
  | arguments | paramList | nameList =>
    rw [Permits, if_neg (by decide)]
    rintro ⟨ts, hnil, hts⟩
    exact hitem hnil hts
  | initializers =>
    rw [Permits, if_neg (by decide)]
    rintro ⟨ts, hnil, hts⟩
    obtain ⟨us, vs, rfl, -, hvs⟩ := Peg.Fits.seq_iff.mp hts
    rw [nodes_append, List.append_eq_nil_iff] at hnil
    exact hitem hnil.2 hvs
  | _ => cases hr

end Rule

/-! ### Programs -/

/-- **The first child that is out of place is reported.**  A program is made only of trees whose
children stand in their places, which are those in which nothing is out of place.  For any other tree
a fault is reported that no other comes before: a fault of shape at a node of the tree, for a child
that is out of place there, or something else that is wrong before all that is out of place. -/
theorem Program.reports_misplaced (t : Tree) :
    (∀ p, Program.ofTree t = .ok p → t.InPlace) ∧
      (t.InPlace ↔ ¬ ∃ q f, t.Misplaced q f) ∧
      (¬ t.InPlace → ∃ q f, Program.ofTree t = .error f ∧
        (t.Misplaced q f ∧ (∃ u v, u.Within t ∧ f = .shape u v) ∨
          t.Mistaken q f ∧ ∀ q' f', t.Misplaced q' f' → q < q') ∧
        ∀ q' f', t.Misplaced q' f' ∨ t.Mistaken q' f' → ¬ q' < q) := by
  have hsettles := Program.settles_ofTree t
  have hok : ∀ p, Program.ofTree t = .ok p → t.InPlace := fun p hp =>
    (inPlace_iff t).mpr fun ⟨q, f, hf⟩ => hsettles.ok p hp q f (.inl hf)
  refine ⟨hok, inPlace_iff t, fun hnot => ?_⟩
  cases h : Program.ofTree t with
  | ok p => exact absurd (hok p h) hnot
  | error f =>
    obtain ⟨q, hq, hfirst⟩ := hsettles.error f h
    refine ⟨q, f, rfl, hq.imp (fun hmis => ⟨hmis, hmis.exists_shape⟩) ?_, hfirst⟩
    refine fun herr => ⟨herr, fun q' f' hmis => ?_⟩
    -- what is out of place does not come before, nor does it stand at the same place
    rcases List.le_iff_lt_or_eq.mp (List.not_lt.mp (hfirst q' f' (.inl hmis))) with hlt | rfl
    · exact hlt
    · exact absurd herr (not_mistaken_of_misplaced hmis)

/-- A declaration that declares nothing. -/
def bareDeclaration : Tree := .node .declaration 0 0 []

def bareProgram : Tree := .node .program 0 0 [bareDeclaration, .node .eoi 0 0 []]

/-- A group of one name without a value for it. -/
def unevenGroup : Tree :=
  .node .varDecl 0 0 [.node .nameList 0 0 [.node .identifier 0 0 [.token ['x']]],
    .node .varType 0 0 [.node .kwAuto 0 0 []], .node .initializers 0 0 []]

/-- Such a group, before a declaration that declares nothing. -/
def unevenProgram : Tree :=
  .node .program 0 0 [.node .declaration 0 0 [unevenGroup], bareDeclaration, .node .eoi 0 0 []]

theorem bareDeclaration_not_inOrder : ¬ bareDeclaration.InOrder := by
  rintro ⟨r, hr, hcase, -⟩
  cases hr
  rcases hcase with hpermits | ⟨hlist, -⟩
  · exact Rule.not_permits_of_kids (by decide) rfl (by decide) hpermits
  · cases hlist

/-- A tree with such a declaration is not in place. -/
theorem not_inPlace_of_bareDeclaration (h : bareDeclaration ∈ t.children) : ¬ t.InPlace := by
  rintro ⟨ds, e, hc, -, he, hordered⟩
  rw [hc, List.mem_append, List.mem_singleton] at h
  rcases h with h | rfl
  · exact bareDeclaration_not_inOrder (hordered _ h _ (.self _))
  · cases he

theorem Program.reports_misplaced_loose :
    (∃ p, Program.ofTree looseProgram = .ok p ∧ looseProgram.InPlace) ∧
      (Program.ofTree bareProgram = .error (.shape bareDeclaration .exhausted) ∧
        ∃ q, bareProgram.Misplaced q (.shape bareDeclaration .exhausted)) ∧
      Program.ofTree unevenProgram = .error (.initializerCount unevenGroup 1 0) ∧
        ∃ q, unevenProgram.Mistaken q (.initializerCount unevenGroup 1 0) ∧
          ∀ q' f', unevenProgram.Misplaced q' f' → q < q' := by
  obtain ⟨p, hp⟩ := exists_ofTree_looseProgram
  have hbare : Program.ofTree bareProgram = .error (.shape bareDeclaration .exhausted) := rfl
  have huneven : Program.ofTree unevenProgram = .error (.initializerCount unevenGroup 1 0) := rfl
  refine ⟨⟨p, hp, (Program.reports_misplaced looseProgram).1 p hp⟩, ⟨hbare, ?_⟩, huneven, ?_⟩
  · obtain ⟨q, f, hf, hq, -⟩ := (Program.reports_misplaced bareProgram).2.2
      (not_inPlace_of_bareDeclaration List.mem_cons_self)
    obtain rfl := Except.error.inj (hbare.symm.trans hf)
    rcases hq with ⟨hmis, -⟩ | ⟨herr, -⟩
    · exact ⟨q, hmis⟩
    · obtain ⟨u, p, -, hu⟩ := herr.exists_errs
      cases hu
  · obtain ⟨q, f, hf, hq, -⟩ := (Program.reports_misplaced unevenProgram).2.2
      (not_inPlace_of_bareDeclaration (List.mem_cons_of_mem _ List.mem_cons_self))
    obtain rfl := Except.error.inj (huneven.symm.trans hf)
    rcases hq with ⟨-, u, v, -, hshape⟩ | herr
    · cases hshape
    · exact ⟨q, herr⟩

/-- **A program can be made of a tree that is none of the grammar**: at a root that is no program
and has no declaration, at a node of every rule whose children are not all examined, and in every
list that is not asked for an item. -/
theorem Program.ofTree_loose :
    (∃ p, Program.ofTree (.node .block 0 0 [.node .eoi 0 0 []]) = .ok p) ∧
      (∃ p, Program.ofTree looseProgram = .ok p) ∧
      (∀ r : Rule, r.isWhole = false →
        ∃ u ∈ looseProgram.preorder, u.rule? = some r ∧ ¬ r.Permits u.children) ∧
      ∀ r : Rule, r.isOpenList = true →
        ∃ u ∈ looseProgram.preorder, u.rule? = some r ∧ u.children = [] ∧ ¬ r.Permits [] := by
  refine ⟨exists_of_isOk (by decide +kernel), exists_ofTree_looseProgram, ?_, ?_⟩
  · intro r hr
    have hall : ∀ r ∈ Rule.all, r.isWhole = false → .eoi ∉ r.body.calls ∧
        ∃ u ∈ looseProgram.preorder, u.rule? = some r ∧ ∃ c ∈ u.children, c.rule? = some .eoi := by
      decide +kernel
    obtain ⟨hcalls, u, hu, hur, c, hc, hcr⟩ := hall r r.mem_all hr
    exact ⟨u, hu, hur, Rule.not_permits_of_calls hc hcr hcalls⟩
  · intro r hr
    have hall : ∀ r ∈ Rule.all, r.isOpenList = true →
        ∃ u ∈ looseProgram.preorder, u.rule? = some r ∧ u.children.isEmpty = true := by
      decide +kernel
    obtain ⟨u, hu, hur, hempty⟩ := hall r r.mem_all hr
    exact ⟨u, hu, hur, List.isEmpty_iff.mp hempty, Rule.not_permits_nil hr⟩

end Mt22
