import Mt22.Proofs.Program.Frame
import Mt22.Proofs.Program.MadeExpr

/-!
# What nodes ask of their children

The frame of a node (`Tree.frame`) is what its rule asks of the children that are examined, together
with what is found wrong when one of them has been read: a number without a value, an operator that is
not known, a list without an item, or more or fewer values than names (`Tree.Special`).  Such a fault
always comes after those of the child itself (`Tree.Special.late`).
-/

namespace Mt22

open Mt22.Tree Mt22.Visit Mt22.Number

namespace Literal

theorem integer_error {n : Tree} {f : Fault} : integer n = .error f ↔
    readSigned64? (withoutSeparators n.text) = none ∧ f = .integerRange n := by
  rw [integer]
  split
  · next h => simp [h]
  · next h => simp [h, eq_comm]

theorem float_error {n : Tree} {f : Fault} : float n = .error f ↔
    Binary64.read? (withLeadingZero (withoutSeparators n.text)) = none ∧ f = .notANumber n := by
  rw [float]
  split
  · next h => simp [h]
  · next h => simp [h, eq_comm]

theorem dimension_error {n : Tree} {f : Fault} : dimension n = .error f ↔
    readUnsigned64? (withoutSeparators n.text) = none ∧ f = .dimensionRange n := by
  rw [dimension]
  split
  · next h => simp [h]
  · next h => simp [h, eq_comm]

end Literal

/-! ### What else can be wrong with a node -/

/-- The rules of nodes with which more can be wrong than that a child is out of place. -/
def Rule.isChecked (r : Rule) : Bool :=
  r ∈ [.expression, .relational, .logical, .additive, .multiplicative, .notExpr, .negExpr, .literal,
    .dimensions, .varDecl, .arrayType, .arrayCell]

theorem Expr.tierRule_ne {t : Tree} {k : Nat} {r : Rule} (hk : k < 5) (hr : ∀ k < 5, tierRule k ≠ r)
    (ht : t.rule? = some r) : t.rule? ≠ some (tierRule k) := by
  rw [ht]
  exact fun h => hr k hk (Option.some.inj h).symm

namespace Tree

variable {t : Tree} {r : Rule} {q : List Nat} {f : Fault}

/-- A fault that is found at a node when one of its children has been read. -/
def Special (t : Tree) : Faults := fun q f => t.Lacks q f ∨ t.Errs q f

/-- The rules of nodes with values, which array types and cells are not. -/
theorem Errs.isChecked (h : t.Errs q f) (ht : t.rule? = some r) :
    r.isChecked = true ∧ r ≠ .arrayType ∧ r ≠ .arrayCell := by
  have hof : ∀ {r'}, t.rule? = some r' →
      r'.isChecked = true ∧ r' ≠ .arrayType ∧ r' ≠ .arrayCell →
      r.isChecked = true ∧ r ≠ .arrayType ∧ r ≠ .arrayCell := by
    intro r' hr' hc
    obtain rfl := Option.some.inj (ht.symm.trans hr')
    exact hc
  cases h with
  | binary hk hr =>
    have hall : ∀ k < 5, (Expr.tierRule k).isChecked = true ∧ Expr.tierRule k ≠ .arrayType ∧
      Expr.tierRule k ≠ .arrayCell := by decide
    exact hof hr (hall _ hk)
  | unary s hr => exact hof hr (by cases s <;> decide)
  | integer hr | float hr | dimension hr | count hr => exact hof hr (by decide)

theorem Lacks.not_errs {p : List Nat} {g : Fault} (h : t.Lacks q f) : ¬ t.Errs p g := by
  intro herrs
  cases h with
  | dimensions ht => exact (herrs.isChecked ht).2.1 rfl
  | indices ht => exact (herrs.isChecked ht).2.2 rfl

namespace Special

/-- A literal: its number has no value. -/
theorem of_literal (h : t.Special q f) (ht : t.rule? = some .literal) :
    ∃ n cs, t.children = n :: cs ∧ (n.rule? = some .intLit ∧ Literal.integer n = .error f ∨
      n.rule? = some .floatLit ∧ Literal.float n = .error f) := by
  rcases h with h | h
  · cases h with
    | dimensions hr | indices hr => cases ht.symm.trans hr
  · cases h with
    | binary hk hr => exact absurd hr (Expr.tierRule_ne hk (by decide) ht)
    | unary s hr => cases s <;> cases ht.symm.trans hr
    | dimension hr | count hr => cases ht.symm.trans hr
    | integer _ hc hr hv => exact ⟨_, _, hc, .inl ⟨hr, Literal.integer_error.mpr ⟨hv, rfl⟩⟩⟩
    | float _ hc hr hv => exact ⟨_, _, hc, .inr ⟨hr, Literal.float_error.mpr ⟨hv, rfl⟩⟩⟩

/-- Dimensions: one of them has no value. -/
theorem of_dimensions (h : t.Special q f) (ht : t.rule? = some .dimensions) :
    ∃ i n, q = [i, 0] ∧ t.examined[i]? = some n ∧ Literal.dimension n = .error f := by
  rcases h with h | h
  · cases h with
    | dimensions hr | indices hr => cases ht.symm.trans hr
  · cases h with
    | binary hk hr => exact absurd hr (Expr.tierRule_ne hk (by decide) ht)
    | unary s hr => cases s <;> cases ht.symm.trans hr
    | integer hr | float hr | count hr => cases ht.symm.trans hr
    | dimension _ hn hv => exact ⟨_, _, rfl, hn, Literal.dimension_error.mpr ⟨hv, rfl⟩⟩

/-- A tier of operators between operands: one of them is not known. -/
theorem of_tier {k : Nat} (h : t.Special q f) (hk : k < 5)
    (ht : t.rule? = some (Expr.tierRule k)) : ∃ i o, q = [i, 0] ∧ t.children[i]? = some o ∧
      o.rule? = some (opRule k) ∧ BinaryOp.ofSymbol? o.string = none := by
  have hne : ∀ {r}, t.rule? = some r → ∃ j < 5, Expr.tierRule j = r :=
    fun hr => ⟨k, hk, Option.some.inj (ht.symm.trans hr)⟩
  rcases h with h | h
  · cases h with
    | dimensions hr | indices hr => exact absurd (hne hr) (by decide)
  · cases h with
    | binary hk' hr ho hor hv =>
      have hall : ∀ i < 5, ∀ j < 5, Expr.tierRule i = Expr.tierRule j → opRule i = opRule j := by
        decide
      rw [hall _ hk' k hk (Option.some.inj (hr.symm.trans ht))] at hor
      exact ⟨_, _, rfl, ho, hor, hv⟩
    | unary s hr => cases s <;> exact absurd (hne hr) (by decide)
    | integer hr | float hr | dimension hr | count hr => exact absurd (hne hr) (by decide)

/-- A tier of operators before an operand: the operator is not known. -/
theorem of_sign {s : UnaryOp} (h : t.Special q f) (ht : t.rule? = some (Expr.tierRule s.tier)) :
    ∃ o cs, t.children = o :: cs ∧ o.rule? = some s.rule ∧ UnaryOp.ofSymbol? o.string = none := by
  have hne : ∀ {r}, t.rule? = some r → r = .notExpr ∨ r = .negExpr := by
    intro r hr
    rw [← Option.some.inj (ht.symm.trans hr)]
    cases s
    · exact .inl rfl
    · exact .inr rfl
  rcases h with h | h
  · cases h with
    | dimensions hr | indices hr => exact absurd (hne hr) (by decide)
  · cases h with
    | binary hk hr =>
      have hall : ∀ k < 5, Expr.tierRule k ≠ .notExpr ∧ Expr.tierRule k ≠ .negExpr := by decide
      rcases hne hr with h | h
      · exact absurd h (hall _ hk).1
      · exact absurd h (hall _ hk).2
    | unary s' hr hc ho hv =>
      obtain rfl : s' = s := by
        have heq := Option.some.inj (hr.symm.trans ht)
        cases s <;> cases s' <;> first | rfl | cases heq
      exact ⟨_, _, hc, ho, hv⟩
    | integer hr | float hr | dimension hr | count hr => exact absurd (hne hr) (by decide)

/-- A group: it has not as many values as names. -/
theorem of_varDecl (h : t.Special q f) (ht : t.rule? = some .varDecl) :
    ∃ ns ty vs rest, t.children = ns :: ty :: vs :: rest ∧ q = [2, vs.children.length] ∧
      (ns.children.takeWhile (·.rule? = some .identifier)).length ≠ vs.children.length := by
  rcases h with h | h
  · cases h with
    | dimensions hr | indices hr => cases ht.symm.trans hr
  · cases h with
    | binary hk hr => exact absurd hr (Expr.tierRule_ne hk (by decide) ht)
    | unary s hr => cases s <;> cases ht.symm.trans hr
    | integer hr | float hr | dimension hr => cases ht.symm.trans hr
    | count _ hc _ _ hn _ hne => exact ⟨_, _, _, _, hc, rfl, hn ▸ hne⟩

/-- An array type or a cell: a list in it has no item. -/
theorem lacks (h : t.Special q f) (ht : t.rule? = some r) (hr : r = .arrayType ∨ r = .arrayCell) :
    t.Lacks q f := by
  refine h.resolve_right fun herrs => ?_
  obtain ⟨-, htype, hcell⟩ := herrs.isChecked ht
  exact hr.elim htype hcell

theorem of_arrayType (h : t.Special q f) (ht : t.rule? = some .arrayType) :
    q = [0, 0] ∧ ∃ d cs, t.children = d :: cs ∧ d.examined = [] := by
  cases h.lacks ht (.inl rfl) with
  | dimensions _ hc _ hnone => exact ⟨rfl, _, _, hc, hnone⟩
  | indices hr => cases ht.symm.trans hr

theorem of_arrayCell (h : t.Special q f) (ht : t.rule? = some .arrayCell) :
    q = [1, 0] ∧ ∃ n a cs, t.children = n :: a :: cs ∧ a.children = [] := by
  cases h.lacks ht (.inr rfl) with
  | dimensions hr => cases ht.symm.trans hr
  | indices _ hc _ hnone => exact ⟨rfl, _, _, _, hc, hnone⟩

end Special

/-! ### Frames of nodes -/

/-- How long after a child such a fault is found. -/
def delay (t : Tree) : Nat :=
  if t.rule? = some .varDecl then (t.children[2]?.map (·.children.length)).getD 0 else 0

theorem Special.isChecked (h : t.Special q f) (ht : t.rule? = some r) : r.isChecked = true := by
  rcases h with h | h
  · cases h with
    | dimensions hr | indices hr =>
      obtain rfl := Option.some.inj (ht.symm.trans hr)
      rfl
  · exact (h.isChecked ht).1

theorem not_special (ht : t.rule? = some r) (hr : r.isChecked = false) : ¬ t.Special q f := by
  intro h
  rw [h.isChecked ht] at hr
  cases hr

theorem owns_iff (ht : t.rule? = some r) : t.Owns q f ↔
    (∃ k, t.Strays r.demand t.examined k f ∧ q = [t.turn k]) ∨ t.Special q f := by
  constructor
  · rintro (h | h)
    · cases h with
      | child hr hstrays =>
        obtain rfl := Option.some.inj (ht.symm.trans hr)
        exact .inl ⟨_, hstrays, rfl⟩
      | item h => exact .inr (.inl h)
    · exact .inr (.inr h)
  · rintro (⟨k, hstrays, rfl⟩ | h | h)
    · exact .inl (.child ht hstrays)
    · exact .inl (.item h)
    · exact .inr h

theorem not_strays_of_admits {e : Peg} {cs : List Tree} {k : Nat} (h : e.Admits cs) :
    ¬ t.Strays e cs k f := by
  rintro ⟨rfl, hb, -⟩
  exact hb.not_admits h

/-- Nothing is wrong with a node whose children stand as it asks, and with which nothing is wrong. -/
theorem raises_none (ht : t.rule? = some r) (hadmits : r.demand.Admits t.examined)
    (hspecial : ∀ q f, ¬ t.Special q f) (hc : ∀ c ∈ t.examined, c.Raises.None) : t.Raises.None := by
  intro q f h
  rw [raises_eq] at h
  rcases h with h | ⟨i, c, p, hi, h, -⟩
  · rcases (owns_iff ht).mp h with ⟨k, hstrays, -⟩ | h
    · exact not_strays_of_admits hadmits hstrays
    · exact hspecial q f h
  · exact hc c (List.mem_of_getElem? hi) p f h

theorem examined_of_isAtomic (ht : t.rule? = some r) (hr : r.isAtomic = true) : t.examined = [] := by
  rw [examined, ht]
  cases r <;> first | rfl | cases hr

theorem examined_of_isWhole (ht : t.rule? = some r) (hr : r.isWhole = true) :
    t.examined = t.children := by
  rw [examined, ht]
  cases r <;> first | rfl | cases hr

theorem examined_of_isHeaded (ht : t.rule? = some r) (hr : r.isHeaded = true) :
    t.examined = t.children.take 1 := by
  rw [examined, ht]
  cases r <;> first | rfl | cases hr

/-- Nothing is wrong with a node that is taken by its text. -/
theorem none_of_isAtomic (ht : t.rule? = some r) (hr : r.isAtomic = true) : t.Raises.None := by
  have hchecked : r.isChecked = false := by
    cases r <;> first | rfl | cases hr
  refine raises_none ht ?_ (fun _ _ => not_special ht hchecked) ?_
  · rw [examined_of_isAtomic ht hr, Rule.demand, if_pos hr]
    exact Peg.admits_start.mpr rfl
  · simp [examined_of_isAtomic ht hr]

theorem delay_of_ne (ht : t.rule? = some r) (hr : r ≠ .varDecl) : t.delay = 0 := by
  rw [delay, if_neg]
  rw [ht]
  exact fun h => hr (Option.some.inj h)

/-- The values of a group have no fault of their own, apart from those of a value. -/
theorem lt_length_of_raises {p : List Nat} (ht : t.rule? = some .initializers)
    (hc : ∀ c ∈ t.children, c.rule? = some .expression) (h : t.Raises p f) :
    p < [t.children.length] := by
  rw [raises_eq] at h
  rw [← examined_of_isWhole ht rfl] at hc ⊢
  rcases h with h | ⟨i, c, p, hi, -, rfl⟩
  · rcases (owns_iff ht).mp h with ⟨k, hstrays, -⟩ | h
    · refine absurd hstrays (not_strays_of_admits ?_)
      refine Peg.admitsAny_singleton.mp (Peg.admitsAny_of_loop rfl ?_ ?_ hc)
      · exact ⟨_, List.mem_singleton_self _, rfl⟩
      · exact ⟨_, List.mem_singleton_self _, rfl⟩
    · exact absurd h (not_special ht rfl)
  · obtain ⟨hlt, -⟩ := List.getElem?_eq_some_iff.mp hi
    exact List.cons_lt_cons_iff.mpr (.inl hlt)

/-- Nothing is wrong with a list that has no item, where none is asked for. -/
theorem none_of_nil (ht : t.rule? = some r) (hr : r.demand.isBare = true)
    (hspecial : ∀ q f, ¬ t.Special q f) (hnil : t.examined = []) : t.Raises.None := by
  refine raises_none ht ?_ hspecial (by simp [hnil])
  rw [hnil]
  exact (Peg.admits_nil_iff _).mpr hr

theorem mem_examined_dimensions {c : Tree} (ht : t.rule? = some .dimensions) (hc : c ∈ t.examined) :
    c.rule? = some .intLit := by
  rw [examined, ht] at hc
  exact rule_of_mem_takeWhile hc

/-- Such a fault comes after those of the child that has been read. -/
theorem Special.late (h : t.Special q f) : ∃ i c, q = [i, t.delay] ∧ t.examined[i]? = some c ∧
    ∀ p g, c.Raises p g → p < [t.delay] := by
  -- apart from a group, nothing is wrong with the child itself
  have hof : ∀ {r i c}, t.rule? = some r → r ≠ .varDecl → t.examined[i]? = some c → c.Raises.None →
      ∃ j d, [i, 0] = [j, t.delay] ∧ t.examined[j]? = some d ∧
        ∀ p g, d.Raises p g → p < [t.delay] := by
    intro r i c ht hr hi hnone
    exact ⟨i, c, by rw [delay_of_ne ht hr], hi, fun p g hp => absurd hp (hnone p g)⟩
  rcases h with h | h
  · cases h with
    | dimensions ht hc hd hnone =>
      refine hof ht (by decide) (by rw [examined_of_isWhole ht rfl, hc]; rfl) ?_
      refine none_of_nil hd rfl (fun _ _ h => ?_) hnone
      obtain ⟨i, n, -, hn, -⟩ := h.of_dimensions hd
      simp [hnone] at hn
    | indices ht hc ha hnone =>
      refine hof ht (by decide) (by rw [examined_of_isWhole ht rfl, hc]; rfl) ?_
      refine none_of_nil ha rfl (fun _ _ => not_special ha rfl) ?_
      rw [examined_of_isWhole ha rfl, hnone]
  · cases h with
    | binary hk ht ho hr =>
      have hall : ∀ k < 5, (Expr.tierRule k).isWhole = true ∧ Expr.tierRule k ≠ .varDecl ∧
        (opRule k).isAtomic = true := by decide
      obtain ⟨hwhole, hne, hatomic⟩ := hall _ hk
      exact hof ht hne (by rw [examined_of_isWhole ht hwhole, ho]) (none_of_isAtomic hr hatomic)
    | unary s ht hc hr =>
      have hall : (Expr.tierRule s.tier).isWhole = true ∧ Expr.tierRule s.tier ≠ .varDecl ∧
        s.rule.isAtomic = true := by cases s <;> decide
      obtain ⟨hwhole, hne, hatomic⟩ := hall
      exact hof ht hne (by rw [examined_of_isWhole ht hwhole, hc]; rfl)
        (none_of_isAtomic hr hatomic)
    | integer ht hc hr | float ht hc hr =>
      exact hof ht (by decide) (by rw [examined_of_isHeaded ht rfl, hc]; rfl)
        (none_of_isAtomic hr rfl)
    | dimension ht hn =>
      have hr := mem_examined_dimensions ht (List.mem_of_getElem? hn)
      exact hof ht (by decide) hn (none_of_isAtomic hr rfl)
    | @count ns ty vs rest n ht hc hns hvs hn hall hne =>
      have hdelay : t.delay = vs.children.length := by
        rw [delay, if_pos ht, hc]
        rfl
      rw [hdelay]
      refine ⟨2, vs, rfl, by rw [examined_of_isWhole ht rfl, hc]; rfl, ?_⟩
      exact fun p g hp => lt_length_of_raises hvs hall hp

theorem isNode_of_mem_children {c : Tree} (h : c ∈ t.children) : c.isNode = true :=
  (List.mem_filter.mp h).2

theorem mem_children_of_examined {c : Tree} (h : c ∈ t.examined) : c ∈ t.children := by
  rw [examined] at h
  split at h
  · cases h
  · exact List.takeWhile_subset _ h
  · exact List.takeWhile_subset _ h
  · split at h
    · exact List.mem_of_mem_take h
    · exact h
  · split at h
    · cases h
    · split at h
      · exact List.mem_of_mem_take h
      · exact h

/-- What a node asks of its children. -/
def frame (t : Tree) (r : Rule) (hr : r.demand.isSyntax = true) : Frame t where
  nodes := t.examined
  demand := r.demand
  special := t.Special
  delay := t.delay
  isNode _ hc := isNode_of_mem_children (mem_children_of_examined hc)
  isSyntax := hr
  special_late _ _ := Special.late

theorem turn_of_isSigned (k : Nat) (h : t.isSigned = false) : t.turn k = k := by
  rw [turn, h]
  rfl

theorem faults_frame (ht : t.rule? = some r) (hr : r.demand.isSyntax = true)
    (hs : t.isSigned = false) : (t.frame r hr).faults = t.Raises := by
  rw [raises_eq, Frame.faults]
  congr 1
  funext q f
  refine propext ?_
  rw [owns_iff ht]
  simp only [turn_of_isSigned _ hs]
  rfl

theorem isSigned_of_rule (ht : t.rule? = some r) (hr : r ≠ .notExpr ∧ r ≠ .negExpr) :
    t.isSigned = false := by
  rw [isSigned, ht]
  split
  · next h _ => exact absurd (Option.some.inj h) hr.1
  · next h _ => exact absurd (Option.some.inj h) hr.2
  · rfl

variable {α : Type} {v : Visit t α}

/-- A visit that follows what the node asks of its children. -/
theorem settles_examined (ht : t.rule? = some r) (hr : r.demand.isSyntax = true)
    (hs : t.isSigned = false) (hnext : t.examined[0]? = t.children[0]?)
    (h : ∀ F : Frame t, F.nodes = t.examined → F.special = t.Special →
      F.Goes (F.At 0 [r.demand] []) v fun _ _ => F.faults.None) : t.Raises.Settles (t.visit v) := by
  rw [← faults_frame ht hr hs]
  exact Frame.settles_visit (h _ rfl rfl) (.zero hnext)

/-- A node of which all children are taken, and with which more can be wrong. -/
theorem settles_whole (ht : t.rule? = some r) (hr : r.isWhole = true ∧ r.demand.isSyntax = true)
    (hs : t.isSigned = false)
    (h : ∀ F : Frame t, F.Whole → F.special = t.Special →
      F.Goes (F.At 0 [r.demand] []) v fun _ => F.Ended) : t.Raises.Settles (t.visitAll v) := by
  have hexamined := examined_of_isWhole ht hr.1
  refine settles_examined ht hr.2 hs (by rw [hexamined]) fun F hnodes hF => ?_
  exact (h F (hnodes.trans hexamined) hF).finish

/-- A node of which all children are taken. -/
theorem settles_plain (ht : t.rule? = some r)
    (hr : r.isWhole = true ∧ r.isChecked = false ∧ r.demand.isSyntax = true)
    (h : ∀ F : Frame t, F.Whole → (∀ i, F.Free i) →
      F.Goes (F.At 0 [r.demand] []) v fun _ => F.Ended) : t.Raises.Settles (t.visitAll v) := by
  have hs : r ≠ .notExpr ∧ r ≠ .negExpr := by
    constructor
    · rintro rfl
      cases hr.2.1
    · rintro rfl
      cases hr.2.1
  refine settles_whole ht ⟨hr.1, hr.2.2⟩ (isSigned_of_rule ht hs) fun F hwhole hspecial =>
    h F hwhole ?_
  intro i p f hf
  rw [hspecial] at hf
  exact not_special ht hr.2.1 hf

theorem ne_of_isHeaded (hr : r.isHeaded = true) : r ≠ .notExpr ∧ r ≠ .negExpr := by
  constructor
  · rintro rfl
    cases hr
  · rintro rfl
    cases hr

/-- A node that is taken by its first child. -/
theorem settles_headed (ht : t.rule? = some r) (hr : r.isHeaded = true ∧ r.demand.isSyntax = true)
    (h : ∀ F : Frame t, F.nodes = t.children.take 1 → F.special = t.Special →
      F.Goes (F.At 0 [r.demand] []) v fun _ _ => F.faults.None) : t.Raises.Settles (t.visit v) := by
  have hexamined := examined_of_isHeaded ht hr.1
  have hs := isSigned_of_rule ht (ne_of_isHeaded hr.1)
  refine settles_examined ht hr.2 hs (by rw [hexamined]; simp) fun F hnodes hF => ?_
  exact h F (hnodes.trans hexamined) hF

end Tree

namespace Frame

variable {t : Tree} {F : Frame t} {r : Rule} {α : Type} {i : Nat} {S : List Peg} {X : List Rule}
  {c : t.Child} {cs : List t.Child}

theorem free_of_special (hF : F.special = t.Special) (ht : t.rule? = some r)
    (hr : r.isChecked = false) (i : Nat) : F.Free i := by
  intro p f hf
  rw [hF] at hf
  exact not_special ht hr hf

theorem Pending.rule? (h : F.Pending i S X r c cs) : c.tree.rule? = some r := by
  rw [c.rule?_eq, h.2]

theorem Pending.raises_none (h : F.Pending i S X r c cs) (hr : r.isAtomic = true) :
    c.tree.Raises.None := none_of_isAtomic h.rule? hr

/-- A child that is taken by its text. -/
theorem Goes.take {v : Visit t α} {Q : α → List t.Child → Prop} (hwhole : F.Whole)
    (hfree : F.Free i) (hr : r.isAtomic = true) (hgo : goesOn S r = true)
    (h : F.Goes (F.At (i + 1) (Peg.advance S r) []) v Q) : F.Goes (F.Pending i S X r c) v Q :=
  h.pre fun _ hcs => hcs.step hwhole hfree hgo (hcs.raises_none hr)

/-- The value of a child is taken. -/
theorem goes_check {x : Except Fault α} (hgo : goesOn S r = true) (hr : r.isAtomic = true)
    (hx : ∀ cs f, F.Pending i S X r c cs → x = .error f → ∃ p, F.special (i :: p) f) :
    F.Goes (F.Pending i S X r c) (liftM x) fun a cs => F.Pending i S X r c cs ∧ x = .ok a := by
  intro cs hcs
  rw [lift_run]
  cases x with
  | error f =>
    obtain ⟨p, hp⟩ := hx cs f hcs rfl
    exact .of_error (hcs.isFirst_special hgo (hcs.raises_none hr) hp)
  | ok a => exact .of_ok ⟨hcs, rfl⟩

section Head

variable (hnodes : F.nodes = t.children.take 1) (hfree : F.Free 0)
include hnodes hfree

/-- Nothing is at fault after the child that a node is taken by. -/
theorem Pending.none_head (h : F.Pending 0 S X r c cs)
    (hgo : (Peg.advance S r).any Peg.isBare = true) (hnone : c.tree.Raises.None) :
    F.faults.None := by
  refine h.none ?_ hfree hgo hnone
  rw [hnodes, List.length_take]
  exact Nat.min_le_left 1 _

theorem goes_atom {a : α} (hr : c.rule = r) (hatom : r.isAtomic = true)
    (hgo : (Peg.advance S r).any Peg.isBare = true) :
    F.Goes (fun cs => F.At 0 S X (c :: cs)) (pure a) fun _ _ => F.faults.None :=
  .of_rule hr (goes_pure fun _ h => h.none_head hnodes hfree hgo (h.raises_none hatom))

theorem goes_head {x : Except Fault α} (hr : c.rule = r)
    (hgo : (Peg.advance S r).any Peg.isBare = true)
    (hx : c.tree.rule? = some r → c.tree.Raises.Settles x) :
    F.Goes (fun cs => F.At 0 S X (c :: cs)) (liftM x) fun _ _ => F.faults.None := by
  refine .of_rule hr ((goes_read ?_ hx).post fun a cs h => ?_)
  · obtain ⟨e, he, -⟩ := List.any_eq_true.mp hgo
    simpa [goesOn] using List.ne_nil_of_mem he
  · exact h.1.none_head hnodes hfree hgo h.2.1

end Head

end Frame

end Mt22
