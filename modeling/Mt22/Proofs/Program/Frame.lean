import Mt22.Proofs.Program.Places
import Mt22.Proofs.Tree.Success

/-!
# Which fault comes first

A visit takes the children of a node from the left, and so do the rules of this file: they follow a
visit child by child, and carry along that nothing is at fault up to here.  `Frame.At` says how far a
visit has come, and what the children that are left may still be; `Frame.Goes` says of a part of a
visit where it starts, where it ends, and that a fault in between is the first one of the node.

The rules are stated over a `Frame`, which is what a node asks of its children together with what else
can be wrong with it.  Their conditions on what may come next are decided by running the grammar.
-/

namespace Mt22

open Mt22.Tree Mt22.Visit

/-! ### Faults by their places -/

/-- Faults with their places. -/
abbrev Faults := List Nat → Fault → Prop

namespace Faults

variable {α β : Type} {R own : Faults} {es : List Tree} {i : Nat} {f : Fault}

/-- Nothing is at fault. -/
def None (R : Faults) : Prop := ∀ q f, ¬ R q f

/-- No fault comes before this one. -/
def IsFirst (R : Faults) (f : Fault) : Prop := ∃ q, R q f ∧ ∀ q' f', R q' f' → ¬ q' < q

/-- No fault comes before the child with this number. -/
def ClearTo (R : Faults) (i : Nat) : Prop := ∀ q f, R q f → ¬ q < [i]

/-- A computation ends with the property, or with the first fault. -/
structure Leads (R : Faults) (x : Except Fault α) (Q : α → Prop) : Prop where
  ok : ∀ a, x = .ok a → Q a
  error : ∀ f, x = .error f → R.IsFirst f

/-- A computation gives something only where nothing is at fault, and otherwise the first fault. -/
abbrev Settles (R : Faults) (x : Except Fault α) : Prop := R.Leads x fun _ => R.None

variable {x : Except Fault α} {Q Q' : α → Prop} {Q₁ : β → Prop}

theorem Leads.of_ok {a : α} (h : Q a) : R.Leads (.ok a) Q := by
  refine ⟨?_, by rintro f ⟨⟩⟩
  rintro b ⟨⟩
  exact h

theorem Leads.of_error (h : R.IsFirst f) : R.Leads (.error f) Q := by
  refine ⟨by rintro b ⟨⟩, ?_⟩
  rintro g ⟨⟩
  exact h

theorem Leads.bind {g : α → Except Fault β} (h : R.Leads x Q) (hg : ∀ a, Q a → R.Leads (g a) Q₁) :
    R.Leads (x >>= g) Q₁ := by
  cases x with
  | error f => exact .of_error (h.error f rfl)
  | ok a => exact hg a (h.ok a rfl)

theorem Leads.post (h : R.Leads x Q) (hQ : ∀ a, Q a → Q' a) : R.Leads x Q' :=
  ⟨fun a ha => hQ a (h.ok a ha), h.error⟩

end Faults

/-- A fault that a node has by itself. -/
def Tree.Owns (t : Tree) : Faults := fun q f => t.Misplaces q f ∨ t.Errs q f

/-- A fault of a node, or of one that is examined below it. -/
def Tree.Raises (t : Tree) : Faults := Along Owns t

/-- Faults on the way along some nodes, and faults of these nodes themselves. -/
def Faults.gather (own : Faults) (es : List Tree) : Faults :=
  fun q f => own q f ∨ ∃ i c p, es[i]? = some c ∧ c.Raises p f ∧ q = i :: p

theorem Tree.raises_eq (t : Tree) : t.Raises = .gather t.Owns t.examined := by
  funext q f
  refine propext ⟨?_, ?_⟩
  · intro h
    cases h with
    | self h => exact .inl h
    | child hc h => exact .inr ⟨_, _, _, hc, h, rfl⟩
  · rintro (h | ⟨i, c, p, hc, h, rfl⟩)
    · exact .self h
    · exact .child hc h

theorem not_lt_singleton {q : List Nat} {i : Nat} : ¬ q < [i] ↔ ∃ j p, q = j :: p ∧ i ≤ j := by
  cases q with
  | nil => simp
  | cons j p => simp [List.cons_lt_cons_iff]

namespace Faults

variable {own : Faults} {es : List Tree} {i : Nat} {f : Fault} {p : List Nat} {c : Tree}

theorem clearTo_zero (hown : ∀ f, ¬ own [] f) : (gather own es).ClearTo 0 := by
  rintro q f h
  refine not_lt_singleton.mpr ?_
  cases q with
  | cons j p => exact ⟨j, p, rfl, Nat.zero_le j⟩
  | nil =>
    rcases h with h | ⟨i, c, p, -, -, hq⟩
    · exact absurd h (hown f)
    · cases hq

/-- What is at fault at a child that is come to, or after it. -/
theorem ClearTo.cases {q : List Nat} (h : (gather own es).ClearTo i) (hq : gather own es q f) :
    (∃ j p, q = j :: p ∧ i < j) ∨ ∃ p, q = i :: p ∧
      (own (i :: p) f ∨ ∃ c, es[i]? = some c ∧ c.Raises p f) := by
  obtain ⟨j, p, rfl, hj⟩ := not_lt_singleton.mp (h q f hq)
  rcases Nat.lt_or_eq_of_le hj with hj | rfl
  · exact .inl ⟨j, p, rfl, hj⟩
  · refine .inr ⟨p, rfl, ?_⟩
    rcases hq with hq | ⟨k, c, p', hc, hraises, heq⟩
    · exact .inl hq
    · obtain ⟨rfl, rfl⟩ := List.cons.inj heq
      exact .inr ⟨c, hc, hraises⟩

theorem ClearTo.succ (h : (gather own es).ClearTo i) (hown : ∀ p f, ¬ own (i :: p) f)
    (hc : ∀ c, es[i]? = some c → c.Raises.None) : (gather own es).ClearTo (i + 1) := by
  intro q f hq
  refine not_lt_singleton.mpr ?_
  rcases h.cases hq with ⟨j, p, rfl, hj⟩ | ⟨p, rfl, hq | ⟨c, hi, hraises⟩⟩
  · exact ⟨j, p, rfl, hj⟩
  · exact absurd hq (hown p f)
  · exact absurd hraises (hc c hi p f)

/-- A fault at the child that is come to is the first if no other at this child comes before it. -/
theorem ClearTo.isFirst (h : (gather own es).ClearTo i) (hf : gather own es (i :: p) f)
    (hown : ∀ p' f', own (i :: p') f' → ¬ p' < p)
    (hc : ∀ c, es[i]? = some c → ∀ p' f', c.Raises p' f' → ¬ p' < p) :
    (gather own es).IsFirst f := by
  refine ⟨i :: p, hf, ?_⟩
  intro q f' hq hlt
  rcases h.cases hq with ⟨j, p', rfl, hj⟩ | ⟨p', rfl, hat⟩
  · rcases List.cons_lt_cons_iff.mp hlt with hlt | ⟨rfl, -⟩
    · exact absurd hlt (Nat.lt_asymm hj)
    · exact absurd hj (Nat.lt_irrefl j)
  · have hp : p' < p := by
      rcases List.cons_lt_cons_iff.mp hlt with hlt | ⟨-, hlt⟩
      · exact absurd hlt (Nat.lt_irrefl i)
      · exact hlt
    rcases hat with hat | ⟨c, hi, hraises⟩
    · exact hown p' f' hat hp
    · exact hc c hi p' f' hraises hp

end Faults

/-! ### Frames -/

/-- What is asked of children of a node, and what else can be wrong with them.  Something else is wrong
with a child when this has been read, and each time it comes after the faults of that child. -/
structure Frame (t : Tree) where
  nodes : List Tree
  demand : Peg
  special : Faults
  delay : Nat
  isNode : ∀ c ∈ nodes, c.isNode = true
  isSyntax : demand.isSyntax = true
  special_late : ∀ q f, special q f → ∃ i c, q = [i, delay] ∧ nodes[i]? = some c ∧
    ∀ p g, c.Raises p g → p < [delay]

namespace Frame

variable {t : Tree} {α β : Type} (F : Frame t)

/-- What can be wrong with the node by itself. -/
def own : Faults := fun q f => (∃ k, t.Strays F.demand F.nodes k f ∧ q = [k]) ∨ F.special q f

/-- What can be wrong with the node and below it. -/
def faults : Faults := .gather F.own F.nodes

/-- All children of the node are asked for. -/
def Whole : Prop := F.nodes = t.children

/-- Nothing else can be wrong with the child that has this number. -/
def Free (i : Nat) : Prop := ∀ p f, ¬ F.special (i :: p) f

/-- Nothing is at fault up to the child with this number, and `S` is what is left of the demand. -/
structure Upto (i : Nat) (S : List Peg) : Prop where
  le : i ≤ F.nodes.length
  state : Peg.after [F.demand] (F.nodes.take i) = S
  ne : S ≠ []
  clear : F.faults.ClearTo i

/-- The children `cs` are left, nothing is at fault before them, and the first of them has none of the
rules `X`. -/
structure At (i : Nat) (S : List Peg) (X : List Rule) (cs : List t.Child) : Prop extends Upto F i S where
  left : cs.map Child.tree = t.children.drop i
  next : F.nodes[i]? = t.children[i]?
  unlike : ∀ c ∈ cs.head?, c.rule ∉ X

variable {F} {i : Nat} {S : List Peg} {X : List Rule} {c : t.Child} {cs : List t.Child} {r : Rule}
  {f : Fault} {v : Violation}

theorem admits_iff (h : Peg.after [F.demand] (F.nodes.take i) = S) {rest : List Tree} :
    F.demand.Admits (F.nodes.take i ++ rest) ↔ Peg.AdmitsAny S rest := by
  rw [← Peg.admitsAny_singleton, Peg.admitsAny_append_iff
    fun c hc => F.isNode c (List.mem_of_mem_take hc), h]

/-- The number of a child that is out of place says which children can be completed. -/
theorem strays_iff {k : Nat} : t.Strays F.demand F.nodes k f ↔
    k ≤ F.nodes.length ∧ F.demand.Breaks (F.nodes.take k) (F.nodes.drop k) ∧
      ∃ v : Violation, v.found? = some (F.nodes[k]?.bind rule?) ∧ f = .shape t v := by
  constructor
  · rintro ⟨hc, hb, hv⟩
    next done left v =>
    rw [hc, List.take_left, List.drop_left]
    refine ⟨by simp, hb, v, ?_, rfl⟩
    rw [hv, ← List.head?_drop, List.drop_left]
  · rintro ⟨hk, hb, v, hv, rfl⟩
    have hstrays := Strays.mk (t := t) (List.take_append_drop k F.nodes).symm hb
      (by rw [List.head?_drop]; exact hv)
    rwa [List.length_take, Nat.min_eq_left hk] at hstrays

/-- A child is out of place where what is left cannot go on. -/
theorem strays_of_stuck (hi : i ≤ F.nodes.length)
    (hS : Peg.after [F.demand] (F.nodes.take i) = S) (hne : S ≠ [])
    (hv : v.found? = some (F.nodes[i]?.bind rule?))
    (hstuck : ∀ rest : List Tree, rest.head? = F.nodes[i]? → ¬ Peg.AdmitsAny S rest) :
    t.Strays F.demand F.nodes i (.shape t v) := by
  refine strays_iff.mpr ⟨hi, ⟨?_, ?_⟩, v, hv, rfl⟩
  · refine (Peg.exists_admits_append F.isSyntax
      fun c hc => F.isNode c (List.mem_of_mem_take hc)).mpr ?_
    rw [hS]
    exact hne
  · intro rest hrest hadmits
    rw [List.head?_drop] at hrest
    exact hstuck rest hrest ((admits_iff hS).mp hadmits)

theorem own_nil : ¬ F.own [] f := by
  rintro (⟨k, -, hq⟩ | h)
  · cases hq
  · obtain ⟨i, c, hq, -⟩ := F.special_late _ _ h
    cases hq

namespace Upto

variable {c : Tree}

theorem zero : F.Upto 0 [F.demand] where
  le := Nat.zero_le _
  state := by simp [Peg.after]
  ne := by simp
  clear := Faults.clearTo_zero fun _ => own_nil

/-- Where what is left can go on, nothing is out of place. -/
theorem not_strays (h : F.Upto i S) (hgo : ∃ rest : List Tree, rest.head? = F.nodes[i]? ∧
    Peg.AdmitsAny S rest) : ¬ t.Strays F.demand F.nodes i f := by
  intro hstrays
  obtain ⟨-, ⟨-, hstuck⟩, -⟩ := strays_iff.mp hstrays
  obtain ⟨rest, hrest, hadmits⟩ := hgo
  refine hstuck rest ?_ ((admits_iff h.state).mpr hadmits)
  rw [hrest, List.head?_drop]

/-- A child that what is left goes on with. -/
theorem exists_rest (h : F.Upto i S) (hc : F.nodes[i]? = some c) (hr : c.rule? = some r)
    (hgo : Peg.advance S r ≠ []) : ∃ rest : List Tree, rest.head? = F.nodes[i]? ∧
      Peg.AdmitsAny S rest := by
  obtain ⟨x, xs, hx⟩ := List.exists_cons_of_ne_nil hgo
  have hafter : Peg.after [F.demand] (F.nodes.take i ++ [c]) = Peg.advance S r := by
    rw [Peg.after_append, h.state, Peg.after_singleton hr]
  have hmem : x ∈ Peg.after [F.demand] (F.nodes.take i ++ [c]) := by simp [hafter, hx]
  obtain ⟨rest, hrest⟩ := Peg.exists_admits
    (Peg.isSyntax_after (by simpa using F.isSyntax) _ x hmem)
  refine ⟨c :: rest, by rw [hc]; rfl, (Peg.admitsAny_cons_iff hr).mpr ⟨x, ?_, hrest⟩⟩
  rwa [hafter] at hmem

/-- A child that what is left goes on with is at fault only for something else. -/
theorem special_of_own {p : List Nat} (h : F.Upto i S) (hc : F.nodes[i]? = some c)
    (hr : c.rule? = some r) (hgo : Peg.advance S r ≠ []) (hown : F.own (i :: p) f) :
    F.special (i :: p) f := by
  rcases hown with ⟨k, hk, hq⟩ | hown
  · obtain ⟨rfl, -⟩ := List.cons.inj hq
    exact absurd hk (h.not_strays (h.exists_rest hc hr hgo))
  · exact hown

theorem step (h : F.Upto i S) (hc : F.nodes[i]? = some c) (hr : c.rule? = some r)
    (hgo : Peg.advance S r ≠ []) (hfree : F.Free i) (hnone : c.Raises.None) :
    F.Upto (i + 1) (Peg.advance S r) where
  le := by
    obtain ⟨hi, -⟩ := List.getElem?_eq_some_iff.mp hc
    exact hi
  state := by
    rw [List.take_add_one, hc, Option.toList_some, Peg.after_append, h.state, Peg.after_singleton hr]
  ne := hgo
  clear := by
    refine h.clear.succ (fun p f hown => hfree p f (h.special_of_own hc hr hgo hown)) ?_
    intro d hd
    obtain rfl := Option.some.inj (hc.symm.trans hd)
    exact hnone

/-- Nothing is at fault when all children have been come to and none need follow. -/
theorem none (h : F.Upto i S) (hi : F.nodes.length ≤ i) (hS : ∃ e ∈ S, e.isBare = true) :
    F.faults.None := by
  have hend : F.nodes[i]? = .none := List.getElem?_eq_none hi
  intro q f hq
  rcases h.clear.cases hq with ⟨j, p, rfl, hj⟩ | ⟨p, rfl, hq | ⟨c, hc, -⟩⟩
  · rcases hq with (⟨k, hk, hq⟩ | hq) | ⟨k, c, p', hc, -, hq⟩
    · obtain ⟨rfl, -⟩ := List.cons.inj hq
      have := (strays_iff.mp hk).1
      omega
    · obtain ⟨k, c, hq, hc, -⟩ := F.special_late _ _ hq
      obtain ⟨rfl, -⟩ := List.cons.inj hq
      obtain ⟨hk, -⟩ := List.getElem?_eq_some_iff.mp hc
      omega
    · obtain ⟨rfl, -⟩ := List.cons.inj hq
      obtain ⟨hk, -⟩ := List.getElem?_eq_some_iff.mp hc
      omega
  · rcases hq with ⟨k, hk, hq⟩ | hq
    · obtain ⟨rfl, -⟩ := List.cons.inj hq
      exact h.not_strays ⟨[], by rw [hend]; rfl, Peg.admitsAny_nil_iff.mpr hS⟩ hk
    · obtain ⟨k, c, hq, hc, -⟩ := F.special_late _ _ hq
      obtain ⟨rfl, -⟩ := List.cons.inj hq
      rw [hend] at hc
      cases hc
  · rw [hend] at hc
    cases hc

end Upto

namespace At

theorem head (h : F.At i S X cs) : F.nodes[i]? = cs.head?.map Child.tree := by
  rw [h.next, ← List.head?_map, h.left, List.head?_drop]

theorem head_cons (h : F.At i S X (c :: cs)) : F.nodes[i]? = some c.tree := h.head

theorem rule_head (h : F.At 0 S X cs) : t.children.head?.bind rule? = cs.head?.map Child.rule := by
  have hleft : cs.map Child.tree = t.children := h.left
  rw [← hleft]
  cases cs with
  | nil => rfl
  | cons c cs => exact c.rule?_eq

/-- The fault of a child that is out of place. -/
theorem isFirst_of_stuck (h : F.At i S X cs) (hv : v.found? = some (cs.head?.map Child.rule))
    (hstuck : ∀ rest : List Tree, rest.head? = cs.head?.map Child.tree → ¬ Peg.AdmitsAny S rest) :
    F.faults.IsFirst (.shape t v) := by
  have hstrays : t.Strays F.demand F.nodes i (.shape t v) := by
    refine strays_of_stuck h.le h.state h.ne ?_ ?_
    · rw [hv, h.head]
      cases cs with
      | nil => rfl
      | cons c cs => simp [c.rule?_eq]
    · rwa [h.head]
  refine h.clear.isFirst (.inl (.inl ⟨i, hstrays, rfl⟩)) ?_ ?_
  · exact fun _ _ _ => List.not_lt_nil _
  · exact fun _ _ _ _ _ => List.not_lt_nil _

/-- The fault of a child that is missing. -/
theorem isFirst_nil (h : F.At i S X []) (hS : ∀ e ∈ S, e.isBare = false)
    (hv : v.found? = some none) : F.faults.IsFirst (.shape t v) :=
  h.isFirst_of_stuck hv fun _ => Peg.not_admitsAny_of_none hS

/-- The fault of a child that cannot follow. -/
theorem isFirst_cons (h : F.At i S X (c :: cs)) (hS : Peg.advance S c.rule = [])
    (hv : v.found? = some (some c.rule)) : F.faults.IsFirst (.shape t v) :=
  h.isFirst_of_stuck hv fun _ => Peg.not_admitsAny_of_some c.rule?_eq hS

/-- The fault of a child that is read. -/
theorem isFirst_child (h : F.At i S X (c :: cs)) (hgo : Peg.advance S c.rule ≠ [])
    (hf : c.tree.Raises.IsFirst f) : F.faults.IsFirst f := by
  obtain ⟨p, hp, hmin⟩ := hf
  refine h.clear.isFirst (.inr ⟨i, c.tree, p, h.head_cons, hp, rfl⟩) ?_ ?_
  · intro p' f' hown hlt
    have hspecial := h.special_of_own h.head_cons c.rule?_eq hgo hown
    obtain ⟨j, d, hq, hd, hlate⟩ := F.special_late _ _ hspecial
    obtain ⟨rfl, rfl⟩ := List.cons.inj hq
    obtain rfl := Option.some.inj (h.head_cons.symm.trans hd)
    exact List.lt_irrefl _ (List.lt_trans hlt (hlate p f hp))
  · intro d hd p' f' hraises
    obtain rfl := Option.some.inj (h.head_cons.symm.trans hd)
    exact hmin p' f' hraises

/-- The fault that is found when a child has been read. -/
theorem isFirst_special {p : List Nat} (h : F.At i S X (c :: cs))
    (hgo : Peg.advance S c.rule ≠ []) (hnone : c.tree.Raises.None)
    (hf : F.special (i :: p) f) : F.faults.IsFirst f := by
  refine h.clear.isFirst (.inl (.inr hf)) ?_ ?_
  · intro p' f' hown
    have hspecial := h.special_of_own h.head_cons c.rule?_eq hgo hown
    obtain ⟨_, _, hq, -⟩ := F.special_late _ _ hspecial
    obtain ⟨_, _, hp, -⟩ := F.special_late _ _ hf
    rw [(List.cons.inj hq).2, (List.cons.inj hp).2]
    exact List.lt_irrefl _
  · intro d hd p' f' hraises
    obtain rfl := Option.some.inj (h.head_cons.symm.trans hd)
    exact absurd hraises (hnone p' f')

/-- A visit goes on after a child with which nothing is wrong. -/
theorem step (h : F.At i S X (c :: cs)) (hwhole : F.Whole) (hgo : Peg.advance S c.rule ≠ [])
    (hfree : F.Free i) (hnone : c.tree.Raises.None) : F.At (i + 1) (Peg.advance S c.rule) [] cs where
  toUpto := h.toUpto.step h.head_cons c.rule?_eq hgo hfree hnone
  left := by
    rw [← List.drop_drop, ← h.left, List.map_cons, List.drop_succ_cons, List.drop_zero]
  next := by rw [hwhole]
  unlike := by simp

end At

/-! ### Visits -/

/-- What is left asks for one more child, of one of the rules; a child of the rules `X` is known not to
come. -/
def asks (S : List Peg) (X rs : List Rule) : Bool :=
  !S.any Peg.isBare && Rule.all.all fun q => q ∈ rs || q ∈ X || (Peg.advance S q).isEmpty

/-- What is left goes on with a child of the rule. -/
def goesOn (S : List Peg) (r : Rule) : Bool := !(Peg.advance S r).isEmpty

/-- What is left can end, and can only end. -/
def closes (S : List Peg) (X : List Rule) : Bool :=
  S.any Peg.isBare && Rule.all.all fun q => q ∈ X || (Peg.advance S q).isEmpty

theorem ne_nil_of_goesOn (h : goesOn S r = true) : Peg.advance S r ≠ [] := by
  simpa [goesOn] using h

theorem not_bare_of_asks {rs : List Rule} (h : asks S X rs = true) :
    ∀ e ∈ S, e.isBare = false := by
  simp only [asks, Bool.and_eq_true, Bool.not_eq_true', List.any_eq_false, Bool.not_eq_true] at h
  exact h.1

theorem advance_of_asks {rs : List Rule} (h : asks S X rs = true) (hrs : r ∉ rs) (hX : r ∉ X) :
    Peg.advance S r = [] := by
  rw [asks, Bool.and_eq_true, List.all_eq_true] at h
  simpa [hrs, hX] using h.2 r r.mem_all

theorem bare_of_closes (h : closes S X = true) : ∃ e ∈ S, e.isBare = true := by
  rw [closes, Bool.and_eq_true] at h
  exact List.any_eq_true.mp h.1

theorem advance_of_closes (h : closes S X = true) (hX : r ∉ X) : Peg.advance S r = [] := by
  rw [closes, Bool.and_eq_true, List.all_eq_true] at h
  simpa [hX] using h.2 r r.mem_all

variable (F)

/-- A visit that starts with children of the first property ends with those of the second, or with the
first fault. -/
def Goes (P : List t.Child → Prop) (v : Visit t α) (Q : α → List t.Child → Prop) : Prop :=
  ∀ cs, P cs → F.faults.Leads (v cs) fun p => Q p.1 p.2

/-- The child `c` has been taken, and what is left may begin with it. -/
def Pending (i : Nat) (S : List Peg) (X : List Rule) (r : Rule) (c : t.Child) (cs : List t.Child) :
    Prop := F.At i S X (c :: cs) ∧ c.rule = r

/-- The children that are left need only be none. -/
def Ended (cs : List t.Child) : Prop := ∃ i S X, F.At i S X cs ∧ closes S X = true

variable {F} {P P' : List t.Child → Prop} {Q Q' : α → List t.Child → Prop}
  {R : β → List t.Child → Prop}

theorem Goes.bind {v : Visit t α} {g : α → Visit t β} (h : F.Goes P v Q)
    (hg : ∀ a, F.Goes (Q a) (g a) R) : F.Goes P (v >>= g) R :=
  fun cs hcs => (h cs hcs).bind fun p hp => hg p.1 p.2 hp

theorem Goes.pre {v : Visit t α} (h : F.Goes P v Q) (hP : ∀ cs, P' cs → P cs) : F.Goes P' v Q :=
  fun cs hcs => h cs (hP cs hcs)

/-- What holds at the start can be used for the visit. -/
theorem Goes.given {v : Visit t α} (h : ∀ cs, P cs → F.Goes P v Q) : F.Goes P v Q :=
  fun cs hcs => h cs hcs cs hcs

theorem Goes.post {v : Visit t α} (h : F.Goes P v Q) (hQ : ∀ a cs, Q a cs → Q' a cs) :
    F.Goes P v Q' :=
  fun cs hcs => (h cs hcs).post fun p hp => hQ p.1 p.2 hp

theorem goes_pure {a : α} (h : ∀ cs, P cs → Q a cs) : F.Goes P (pure a) Q :=
  fun cs hcs => .of_ok (h cs hcs)

theorem goes_end {a : α} (h : closes S X = true) :
    F.Goes (F.At i S X) (pure a) fun _ => F.Ended := goes_pure fun _ hcs => ⟨i, S, X, hcs, h⟩

/-- Nothing follows a fault. -/
theorem goes_fail {v : Visit t α} {g : α → Visit t β} (hv : ∀ cs, v cs = .error f)
    (h : ∀ cs, P cs → F.faults.IsFirst f) : F.Goes P (v >>= g) R := by
  intro cs hcs
  rw [bind_run, hv]
  exact .of_error (h cs hcs)

theorem goes_next {rs : List Rule} (h : asks S X rs = true) :
    F.Goes (F.At i S X) next fun c cs => F.At i S X (c :: cs) := by
  intro cs hcs
  cases cs with
  | nil => exact .of_error (hcs.isFirst_nil (not_bare_of_asks h) rfl)
  | cons c cs => exact .of_ok hcs

theorem goes_expect (h : asks S X [r] = true) :
    F.Goes (F.At i S X) (expect r) (F.Pending i S X r) := by
  intro cs hcs
  cases cs with
  | nil => exact .of_error (hcs.isFirst_nil (not_bare_of_asks h) rfl)
  | cons c cs =>
    rw [expect]
    split
    · next hr => exact .of_ok ⟨hcs, hr⟩
    · next hr =>
      have hadvance := advance_of_asks h (by simpa using hr) (hcs.unlike c rfl)
      exact .of_error (hcs.isFirst_cons hadvance rfl)

theorem At.notIn (h : F.At i S X cs) (hr : ∀ c ∈ cs.head?, c.rule ≠ r) : F.At i S (r :: X) cs where
  toUpto := h.toUpto
  left := h.left
  next := h.next
  unlike c hc := by
    rw [List.mem_cons, not_or]
    exact ⟨hr c hc, h.unlike c hc⟩

theorem goes_optional {g : Option t.Child → Visit t α}
    (hsome : ∀ c, F.Goes (F.Pending i S X r c) (g (some c)) Q)
    (hnone : F.Goes (F.At i S (r :: X)) (g none) Q) : F.Goes (F.At i S X) (optional r >>= g) Q := by
  intro cs hcs
  rw [bind_run]
  cases cs with
  | nil => exact hnone [] (hcs.notIn (by simp))
  | cons c cs =>
    rw [optional_cons]
    split
    · next hr => exact hsome c cs ⟨hcs, hr⟩
    · next hr => exact hnone (c :: cs) (hcs.notIn (by simpa using hr))

theorem goes_flag {g : Bool → Visit t α} (htrue : ∀ c, F.Goes (F.Pending i S X r c) (g true) Q)
    (hfalse : F.Goes (F.At i S (r :: X)) (g false) Q) : F.Goes (F.At i S X) (flag r >>= g) Q := by
  rw [flag, bind_assoc]
  exact goes_optional htrue hfalse

theorem goes_finish : F.Goes F.Ended finish fun _ _ => F.faults.None := by
  rintro cs ⟨i, S, X, hcs, h⟩
  cases cs with
  | nil =>
    refine .of_ok (hcs.toUpto.none ?_ (bare_of_closes h))
    exact List.getElem?_eq_none_iff.mp hcs.head
  | cons c cs =>
    exact .of_error (hcs.isFirst_cons (advance_of_closes h (hcs.unlike c rfl)) rfl)

/-- A child of which the rule is known. -/
theorem Goes.of_rule {v : Visit t α} (hr : c.rule = r) (h : F.Goes (F.Pending i S X r c) v Q) :
    F.Goes (fun cs => F.At i S X (c :: cs)) v Q := h.pre fun _ hcs => ⟨hcs, hr⟩

/-- A child that has none of the rules that can follow. -/
theorem goes_unexpected {rs : List Rule} {role : Role} (h : asks S X rs = true) (hr : c.rule ∉ rs) :
    F.Goes (fun cs => F.At i S X (c :: cs)) (violation (.unexpected role c.rule)) Q :=
  fun _ hcs => .of_error (hcs.isFirst_cons (advance_of_asks h hr (hcs.unlike c rfl)) rfl)

/-- A child is read.  It stays where it is, since something else may be wrong with it. -/
theorem goes_read_of {v : Visit t α} {x : Except Fault α} (hgo : goesOn S r = true)
    (hv : ∀ cs, v cs = x >>= fun a => .ok (a, cs))
    (hx : c.tree.rule? = some r → c.tree.Raises.Settles x) :
    F.Goes (F.Pending i S X r c) v
      fun a cs => F.Pending i S X r c cs ∧ c.tree.Raises.None ∧ x = .ok a := by
  rintro cs ⟨hcs, rfl⟩
  have hsettles := hx c.rule?_eq
  rw [hv]
  cases x with
  | error f => exact .of_error (hcs.isFirst_child (ne_nil_of_goesOn hgo) (hsettles.error f rfl))
  | ok a => exact .of_ok ⟨⟨hcs, rfl⟩, hsettles.ok a rfl, rfl⟩

theorem goes_read {x : Except Fault α} (hgo : goesOn S r = true)
    (hx : c.tree.rule? = some r → c.tree.Raises.Settles x) :
    F.Goes (F.Pending i S X r c) (liftM x)
      fun a cs => F.Pending i S X r c cs ∧ c.tree.Raises.None ∧ x = .ok a :=
  goes_read_of hgo (lift_run x) hx

/-- Something else is wrong with a child that has been read. -/
theorem Pending.isFirst_special {p : List Nat} (h : F.Pending i S X r c cs)
    (hgo : goesOn S r = true) (hnone : c.tree.Raises.None) (hf : F.special (i :: p) f) :
    F.faults.IsFirst f := by
  obtain ⟨hat, rfl⟩ := h
  exact hat.isFirst_special (ne_nil_of_goesOn hgo) hnone hf

theorem Pending.step (h : F.Pending i S X r c cs) (hwhole : F.Whole) (hfree : F.Free i)
    (hgo : goesOn S r = true) (hnone : c.tree.Raises.None) :
    F.At (i + 1) (Peg.advance S r) [] cs := by
  obtain ⟨hat, rfl⟩ := h
  exact hat.step hwhole (ne_nil_of_goesOn hgo) hfree hnone

/-- Nothing is at fault after the last child that is asked for. -/
theorem Pending.none (h : F.Pending i S X r c cs) (hlast : F.nodes.length ≤ i + 1)
    (hfree : F.Free i) (hgo : (Peg.advance S r).any Peg.isBare = true)
    (hnone : c.tree.Raises.None) : F.faults.None := by
  obtain ⟨hat, rfl⟩ := h
  have hbare := List.any_eq_true.mp hgo
  obtain ⟨e, he, -⟩ := hbare
  exact (hat.toUpto.step hat.head_cons c.rule?_eq (List.ne_nil_of_mem he) hfree hnone).none hlast
    (List.any_eq_true.mp hgo)

section Whole

variable (hwhole : F.Whole) (hfree : F.Free i)
include hwhole hfree

theorem goes_child {x : Except Fault α} (hgo : goesOn S r = true)
    (hx : c.tree.rule? = some r → c.tree.Raises.Settles x) :
    F.Goes (F.Pending i S X r c) (liftM x) fun _ => F.At (i + 1) (Peg.advance S r) [] :=
  (goes_read hgo hx).post fun _ _ h => h.1.step hwhole hfree hgo h.2.1

/-- The last child is read. -/
theorem goes_last {x : Except Fault α} (hgo : goesOn S r = true)
    (hend : closes (Peg.advance S r) [] = true)
    (hx : c.tree.rule? = some r → c.tree.Raises.Settles x) :
    F.Goes (F.Pending i S X r c) (liftM x) fun _ => F.Ended :=
  (goes_child hwhole hfree hgo hx).post fun _ _ h => ⟨_, _, _, h, hend⟩

end Whole

/-- Children with a rule have been taken together. -/
def Queue (F : Frame t) (i : Nat) (S : List Peg) (r : Rule) (es cs : List t.Child) : Prop :=
  F.At i S [] (es ++ cs) ∧ (∀ c ∈ es, c.rule = r) ∧ ∀ c ∈ cs.head?, c.rule ≠ r

theorem goes_many : F.Goes (F.At i S []) (many r) (F.Queue i S r) := by
  intro cs hcs
  refine .of_ok ⟨?_, ?_, ?_⟩
  · rw [List.takeWhile_append_dropWhile]
    exact hcs
  · intro c hc
    exact of_decide_eq_true (List.all_eq_true.mp List.all_takeWhile c hc)
  · intro c hc
    have := List.head?_dropWhile_not (·.rule = r) cs
    rw [hc] at this
    simpa using this

/-- A child is read, outside a visit. -/
theorem At.leads_child {x : Except Fault α} (h : F.At i S X (c :: cs)) (hwhole : F.Whole)
    (hfree : F.Free i) (hr : c.rule = r) (hgo : goesOn S r = true)
    (hx : c.tree.rule? = some r → c.tree.Raises.Settles x) :
    F.faults.Leads x fun _ => F.At (i + 1) (Peg.advance S r) [] cs := by
  subst hr
  have hsettles := hx c.rule?_eq
  exact ⟨fun a ha => h.step hwhole (ne_nil_of_goesOn hgo) hfree (hsettles.ok a ha),
    fun f hf => h.isFirst_child (ne_nil_of_goesOn hgo) (hsettles.error f hf)⟩

/-- Children that are read one after the other.  What is left is the same after each of them. -/
theorem At.leads_mapM {g : Tree → Except Fault α} {es : List t.Child} (hwhole : F.Whole)
    (hfree : ∀ i, F.Free i) (hgo : goesOn S r = true)
    (hloop : Peg.advance (Peg.advance S r) r = Peg.advance S r)
    (hg : ∀ c : t.Child, c.tree.rule? = some r → c.tree.Raises.Settles (g c.tree))
    (h : F.At i S [] (es ++ cs)) (hes : ∀ c ∈ es, c.rule = r) :
    F.faults.Leads ((es.map Child.tree).mapM g)
      fun _ => ∃ j, F.At j S [] cs ∨ F.At j (Peg.advance S r) [] cs := by
  induction es generalizing i S with
  | nil => exact .of_ok ⟨i, .inl h⟩
  | cons c es ih =>
    obtain ⟨hc, hes⟩ := List.forall_mem_cons.mp hes
    rw [List.map_cons, List.mapM_cons]
    refine (h.leads_child hwhole (hfree i) hc hgo (hg c)).bind fun a hstep => ?_
    refine (ih (by rw [goesOn, hloop]; exact hgo) (by rw [hloop, hloop]) hstep hes).bind fun as has => ?_
    obtain ⟨j, hj⟩ := has
    rw [hloop, or_self_iff] at hj
    exact .of_ok ⟨j, .inr hj⟩

theorem goes_mapM {g : Tree → Except Fault α} {es : List t.Child} (hwhole : F.Whole)
    (hfree : ∀ i, F.Free i) (hgo : goesOn S r = true)
    (hloop : Peg.advance (Peg.advance S r) r = Peg.advance S r)
    (hg : ∀ c : t.Child, c.tree.rule? = some r → c.tree.Raises.Settles (g c.tree)) :
    F.Goes (F.Queue i S r es) (es.mapM fun c => liftM (g c.tree))
      fun _ cs => ∃ j, F.At j S [r] cs ∨ F.At j (Peg.advance S r) [r] cs := by
  rintro cs ⟨hcs, hes, hhead⟩
  rw [mapM_run]
  refine (hcs.leads_mapM hwhole hfree hgo hloop hg hes).bind fun as has => .of_ok ?_
  obtain ⟨j, hj⟩ := has
  exact ⟨j, hj.imp (·.notIn hhead) (·.notIn hhead)⟩

/-- A list of children that are read, at the end of a node. -/
theorem goes_items {g : Tree → Except Fault α} (hwhole : F.Whole) (hfree : ∀ i, F.Free i)
    (hgo : goesOn S r = true) (hloop : Peg.advance (Peg.advance S r) r = Peg.advance S r)
    (hend : (closes S [r] && closes (Peg.advance S r) [r]) = true)
    (hg : ∀ c : t.Child, c.tree.rule? = some r → c.tree.Raises.Settles (g c.tree)) :
    F.Goes (F.At i S []) (do
      let cs ← many r
      cs.mapM fun c => liftM (g c.tree)) fun _ => F.Ended := by
  obtain ⟨hnone, hsome⟩ := Bool.and_eq_true_iff.mp hend
  refine goes_many.bind fun es => (goes_mapM hwhole hfree hgo hloop hg).post fun _ cs hcs => ?_
  obtain ⟨j, hj | hj⟩ := hcs
  · exact ⟨_, _, _, hj, hnone⟩
  · exact ⟨_, _, _, hj, hsome⟩

/-! ### Whole visits -/

variable {v : Visit t α}

theorem At.zero (h : F.nodes[0]? = t.children[0]?) : F.At 0 [F.demand] [] t.childList where
  toUpto := .zero
  left := childList_map t
  next := h
  unlike := by simp

theorem settles_visit (h : F.Goes P v fun _ _ => F.faults.None) (hP : P t.childList) :
    F.faults.Settles (t.visit v) := by
  have hall := h t.childList hP
  rw [visit]
  cases hx : v t.childList with
  | error f => exact .of_error (hall.error f hx)
  | ok p => exact .of_ok (hall.ok p hx)

/-- A visit of all children. -/
theorem Goes.finish (h : F.Goes P v fun _ => F.Ended) :
    F.Goes P (do
      let a ← v
      Visit.finish
      return a) fun _ _ => F.faults.None :=
  h.bind fun _ => goes_finish.bind fun _ => goes_pure fun _ hnone => hnone

end Frame

end Mt22
