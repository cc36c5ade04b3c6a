import Mt22.Proofs.Tree.Alike

/-!
# Open trees

A tree is open if it ends with an `if` that has no `else`: an `else` after it would be taken by
that `if`.  In a tree in which every `else` belongs to the nearest `if`, none stands after an open
tree.  Such trees are the ones that reading gives.
-/

namespace Mt22.Tree

/-- The token `else`. -/
def elseToken : Tree := .token "else".toList

/-- There is an `else` among the trees. -/
def hasElse (ts : List Tree) : Bool :=
  ts.any fun
    | .token w => w = "else".toList
    | _ => false

mutual

/-- The tree ends with an `if` that could take an `else`. -/
def isOpen : Tree → Bool
  | .node r _ _ ps => r = .ifStmt && !hasElse ps || openAll ps
  | _ => false

/-- The last of the trees, trivia apart, is open. -/
def openAll : List Tree → Bool
  | [] => false
  | t :: ts => if ts.all isTrivia then t.isOpen else openAll ts

end

@[simp] theorem openAll_nil : openAll [] = false := rfl

theorem openAll_append {ts us : List Tree} (h : us.all isTrivia = false) :
    openAll (ts ++ us) = openAll us := by
  induction ts with
  | nil => rfl
  | cons t ts ih =>
    have hall : (ts ++ us).all isTrivia = false := by
      rw [List.all_append, h, Bool.and_false]
    rw [List.cons_append, openAll, hall, ← ih]
    rfl

theorem openAll_append_singleton (ts : List Tree) {t : Tree} (h : t.isTrivia = false) :
    openAll (ts ++ [t]) = t.isOpen :=
  openAll_append (by simp [h])

theorem openAll_of_isTrivia {ts : List Tree} (h : ts.all isTrivia = true) : openAll ts = false := by
  cases ts with
  | nil => rfl
  | cons t ts =>
    rw [List.all_cons, Bool.and_eq_true] at h
    rw [openAll, h.2]
    cases t with
    | trivia => rfl
    | token | node => cases h.1

theorem all_isTrivia_solid (ts : List Tree) : (solid ts).all isTrivia = ts.all isTrivia := by
  induction ts with
  | nil => rfl
  | cons t ts ih =>
    cases t with
    | token | node => rfl
    | trivia s => exact ih

theorem openAll_solid (ts : List Tree) : openAll (solid ts) = openAll ts := by
  induction ts with
  | nil => rfl
  | cons t ts ih =>
    cases t with
    | token s => rw [solid_cons_token, openAll, openAll, all_isTrivia_solid, ih]
    | node r a b ps => rw [solid_cons_node, openAll, openAll, all_isTrivia_solid, ih]
    | trivia s =>
      rw [openAll]
      split
      · next h => exact openAll_of_isTrivia (by rw [all_isTrivia_solid]; simpa [isTrivia] using h)
      · exact ih

theorem hasElse_solid (ts : List Tree) : hasElse (solid ts) = hasElse ts := by
  induction ts with
  | nil => rfl
  | cons t ts ih => cases t <;> simp [solid, hasElse, isTrivia] at ih ⊢ <;> rw [ih]

/-! ### The parts of an `if` -/

/-- The parts of an `if` statement up to its first branch. -/
def ifParts (e a : Tree) : List Tree :=
  [.token "if".toList, .token "(".toList, e, .token ")".toList, a]

theorem hasElse_ifParts {e a : Tree} (he : e.isNode = true) (ha : a.isNode = true) :
    hasElse (ifParts e a) = false := by
  cases e with
  | token | trivia => cases he
  | node =>
    cases a with
    | token | trivia => cases ha
    | node => rfl

theorem fits_ifParts {e a : Tree} (he : e.rule? = some .expression) (ha : a.rule? = some .statement) :
    Rule.ifStmt.body.Fits (ifParts e a) :=
  .item (Peg.Fits.word_iff.mpr rfl) (.item (.text _) (.item (.call he) (.item (.text _)
    (.item (.call ha) .without))))

theorem fits_ifParts_else {e a b : Tree} (he : e.rule? = some .expression)
    (ha : a.rule? = some .statement) (hb : b.rule? = some .statement) :
    Rule.ifStmt.body.Fits (ifParts e a ++ [elseToken, b]) :=
  .item (Peg.Fits.word_iff.mpr rfl) (.item (.text _) (.item (.call he) (.item (.text _)
    (.item (.call ha) (.within (.item (Peg.Fits.word_iff.mpr rfl) (.call hb)))))))

/-- The parts of an `if` statement: one branch, or two with an `else` between them. -/
theorem ifStmt_cases {ts : List Tree} (h : Rule.ifStmt.body.Fits ts) :
    ∃ e a, e.rule? = some .expression ∧ a.rule? = some .statement ∧
      (ts = ifParts e a ∨ ∃ b, b.rule? = some .statement ∧ ts = ifParts e a ++ [elseToken, b]) := by
  obtain ⟨t1, s1, rfl, h1, r1⟩ := Peg.Fits.seq_iff.mp h
  obtain ⟨t2, s2, rfl, h2, r2⟩ := Peg.Fits.seq_iff.mp r1
  obtain ⟨t3, s3, rfl, h3, r3⟩ := Peg.Fits.seq_iff.mp r2
  obtain ⟨t4, s4, rfl, h4, r4⟩ := Peg.Fits.seq_iff.mp r3
  obtain ⟨t5, s5, rfl, h5, r5⟩ := Peg.Fits.seq_iff.mp r4
  obtain rfl := Peg.Fits.word_iff.mp h1
  obtain rfl := Peg.Fits.text_iff.mp h2
  obtain ⟨e, rfl, he⟩ := Peg.Fits.call_iff.mp h3
  obtain rfl := Peg.Fits.text_iff.mp h4
  obtain ⟨a, rfl, ha⟩ := Peg.Fits.call_iff.mp h5
  refine ⟨e, a, he, ha, ?_⟩
  rcases Peg.Fits.opt_iff.mp r5 with rfl | r5
  · exact .inl rfl
  · obtain ⟨t6, s6, rfl, h6, h7⟩ := Peg.Fits.seq_iff.mp r5
    obtain rfl := Peg.Fits.word_iff.mp h6
    obtain ⟨b, rfl, hb⟩ := Peg.Fits.call_iff.mp h7
    exact .inr ⟨b, hb, rfl⟩

/-! ### No stray `else` -/

theorem hasElse_iff {ts : List Tree} : hasElse ts = true ↔ elseToken ∈ ts := by
  rw [hasElse, List.any_eq_true]
  constructor
  · rintro ⟨t, ht, h⟩
    cases t with
    | token w =>
      obtain rfl := of_decide_eq_true h
      exact ht
    | trivia | node => cases h
  · intro h
    exact ⟨_, h, rfl⟩

/-- No `else` among the trees stands after an open tree. -/
def NoStray (ts : List Tree) : Prop :=
  ∀ us vs, ts = us ++ elseToken :: vs → openAll us = false

theorem NoStray.left {ts us : List Tree} (h : NoStray (ts ++ us)) : NoStray ts := by
  rintro xs ys rfl
  exact h xs (ys ++ us) (by simp)

theorem NoStray.right {ts us : List Tree} (h : NoStray (ts ++ us)) : NoStray us := by
  rintro xs ys rfl
  by_cases hx : xs.all isTrivia = true
  · exact openAll_of_isTrivia hx
  · rw [Bool.not_eq_true] at hx
    have hopen : openAll (ts ++ xs) = openAll xs := openAll_append hx
    rw [← hopen]
    exact h (ts ++ xs) ys (by simp)

/-- Every `else` belongs to the nearest `if` that can take it. -/
inductive Nearest : Tree → Prop
  | node {r : Rule} {a b : Nat} {ps : List Tree} (stray : NoStray (solid ps))
      (parts : ∀ t ∈ ps, t.isNode = true → Nearest t) : Nearest (.node r a b ps)

theorem Nearest.children {t : Tree} (h : t.Nearest) : ∀ c ∈ t.children, c.Nearest := by
  intro c hc
  obtain ⟨hmem, hnode⟩ := List.mem_filter.mp hc
  cases h with
  | node _ hparts => exact hparts c hmem hnode

end Mt22.Tree
