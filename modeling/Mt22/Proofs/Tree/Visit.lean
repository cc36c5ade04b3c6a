import Mt22.Tree.Visit

/-!
# Evaluating visits

A visit is a computation on a list of children that may fault.  The equations of this file
evaluate one on a list that is known; they are simp lemmas, so that what a function makes of a
node with given children comes out by simplification.
-/

namespace Mt22

namespace Tree

/-- The children that a visit is given are those of the node. -/
theorem childList_map (t : Tree) : t.childList.map Child.tree = t.children := by
  have h : ∀ (ps : List Tree) (hps : ∀ c ∈ ps, c ∈ t.parts),
      (ps.attach.filterMap fun c => asChild? c.val (hps c.val c.property)).map Child.tree =
        ps.filter isNode := by
    intro ps
    induction ps with
    | nil => intro _; rfl
    | cons p ps ih =>
      intro hps
      have hih := ih fun c hc => hps c (List.mem_cons_of_mem p hc)
      rw [List.attach_cons, List.filterMap_cons, List.filterMap_map]
      cases p with
      | token => simpa [asChild?, isNode, Function.comp_def] using hih
      | trivia => simpa [asChild?, isNode, Function.comp_def] using hih
      | node r a b qs =>
        rw [List.filter_cons_of_pos (by rfl), ← hih]
        rfl
  exact h t.parts fun _ hc => hc

variable {t : Tree}

theorem Child.rule_eq {r : Rule} (c : t.Child) (h : c.tree.rule? = some r) : c.rule = r := by
  rw [c.rule?_eq] at h
  exact Option.some.inj h

/-- The first of some children, and those after it. -/
theorem cons_of_map_tree {l : Tree} {cs : List t.Child} {ts : List Tree}
    (h : cs.map Child.tree = l :: ts) :
    ∃ c cs', cs = c :: cs' ∧ c.tree = l ∧ cs'.map Child.tree = ts := by
  cases cs with
  | nil => cases h
  | cons c cs => exact ⟨c, cs, rfl, (List.cons.inj h).1, (List.cons.inj h).2⟩

theorem childList_rule {r : Rule} (h : ∀ c ∈ t.children, c.rule? = some r) :
    ∀ c ∈ t.childList, c.rule = r := by
  intro c hc
  refine c.rule_eq (h c.tree ?_)
  rw [← childList_map]
  exact List.mem_map_of_mem hc

theorem childList_nil (h : t.children = []) : t.childList = [] := by
  rw [← childList_map] at h
  exact List.map_eq_nil_iff.mp h

theorem childList_cons {l : Tree} {ts : List Tree} (h : t.children = l :: ts) :
    ∃ (c : t.Child) (cs : List t.Child),
      t.childList = c :: cs ∧ c.tree = l ∧ cs.map Child.tree = ts := by
  rw [← childList_map] at h
  exact cons_of_map_tree h

theorem childList_one {l : Tree} (h : t.children = [l]) :
    ∃ c : t.Child, t.childList = [c] ∧ c.tree = l := by
  obtain ⟨c, cs, hc, hl, h1⟩ := childList_cons h
  rw [List.map_eq_nil_iff.mp h1] at hc
  exact ⟨c, hc, hl⟩

theorem childList_two {l m : Tree} (h : t.children = [l, m]) :
    ∃ c d : t.Child, t.childList = [c, d] ∧ c.tree = l ∧ d.tree = m := by
  obtain ⟨c, cs, hc, hl, h1⟩ := childList_cons h
  obtain ⟨d, ds, rfl, hm, h2⟩ := cons_of_map_tree h1
  rw [List.map_eq_nil_iff.mp h2] at hc
  exact ⟨c, d, hc, hl, hm⟩

theorem childList_three {l m n : Tree} (h : t.children = [l, m, n]) :
    ∃ c d e : t.Child, t.childList = [c, d, e] ∧ c.tree = l ∧ d.tree = m ∧ e.tree = n := by
  obtain ⟨c, cs, hc, hl, h1⟩ := childList_cons h
  obtain ⟨d, ds, rfl, hm, h2⟩ := cons_of_map_tree h1
  obtain ⟨e, es, rfl, hn, h3⟩ := cons_of_map_tree h2
  rw [List.map_eq_nil_iff.mp h3] at hc
  exact ⟨c, d, e, hc, hl, hm, hn⟩

theorem childList_four {l m n o : Tree} (h : t.children = [l, m, n, o]) :
    ∃ c d e f : t.Child, t.childList = [c, d, e, f] ∧
      c.tree = l ∧ d.tree = m ∧ e.tree = n ∧ f.tree = o := by
  obtain ⟨c, cs, hc, hl, h1⟩ := childList_cons h
  obtain ⟨d, ds, rfl, hm, h2⟩ := cons_of_map_tree h1
  obtain ⟨e, es, rfl, hn, h3⟩ := cons_of_map_tree h2
  obtain ⟨f, fs, rfl, ho, h4⟩ := cons_of_map_tree h3
  rw [List.map_eq_nil_iff.mp h4] at hc
  exact ⟨c, d, e, f, hc, hl, hm, hn, ho⟩

end Tree

namespace Visit

/-! ### Computations that may fault -/

section Faults

variable {α β γ : Type}

@[simp] theorem ok_bind (a : α) (f : α → Except Fault β) :
    ((Except.ok a : Except Fault α) >>= f) = f a := rfl

@[simp] theorem error_bind (e : Fault) (f : α → Except Fault β) :
    ((Except.error e : Except Fault α) >>= f) = .error e := rfl

@[simp] theorem pure_eq_ok (a : α) : (pure a : Except Fault α) = .ok a := rfl

@[simp] theorem map_ok (a : α) (f : α → β) : (Except.ok a : Except Fault α).map f = .ok (f a) := rfl

@[simp] theorem map_error (e : Fault) (f : α → β) :
    (Except.error e : Except Fault α).map f = .error e := rfl

@[simp] theorem fmap_ok (a : α) (f : α → β) : f <$> (Except.ok a : Except Fault α) = .ok (f a) := rfl

@[simp] theorem fmap_error (e : Fault) (f : α → β) :
    f <$> (Except.error e : Except Fault α) = .error e := rfl

theorem mapM_congr {f g : α → Except Fault β} {as : List α} (h : ∀ a ∈ as, f a = g a) :
    as.mapM f = as.mapM g := by
  induction as with
  | nil => rfl
  | cons a as ih =>
    rw [List.mapM_cons, List.mapM_cons, h a List.mem_cons_self,
      ih fun b hb => h b (List.mem_cons_of_mem a hb)]

theorem length_of_mapM {f : α → Except Fault β} {as : List α} {bs : List β}
    (h : as.mapM f = .ok bs) : bs.length = as.length := by
  induction as generalizing bs with
  | nil =>
    obtain rfl := Except.ok.inj h
    rfl
  | cons a as ih =>
    rw [List.mapM_cons] at h
    cases hb : f a with
    | error e => rw [hb] at h; cases h
    | ok b =>
      cases hbs : as.mapM f with
      | error e => rw [hb, hbs] at h; cases h
      | ok cs =>
        rw [hb, hbs] at h
        obtain rfl := Except.ok.inj h
        rw [List.length_cons, ih hbs, List.length_cons]

end Faults

/-! ### Visits on a list of children -/

variable {t : Tree} {α β : Type}

@[simp] theorem bind_run (v : Visit t α) (f : α → Visit t β) (cs : List t.Child) :
    (v >>= f) cs = v cs >>= fun p => f p.1 p.2 := rfl

@[simp] theorem pure_run (a : α) (cs : List t.Child) : (pure a : Visit t α) cs = .ok (a, cs) := rfl

@[simp] theorem fmap_run (f : α → β) (v : Visit t α) (cs : List t.Child) :
    (f <$> v) cs = v cs >>= fun p => .ok (f p.1, p.2) := rfl

@[simp] theorem lift_run (x : Except Fault α) (cs : List t.Child) :
    (liftM x : Visit t α) cs = x >>= fun a => .ok (a, cs) := by
  cases x <;> rfl

theorem lift_ok_bind (a : α) (f : α → Visit t β) :
    (liftM (Except.ok a : Except Fault α) : Visit t α) >>= f = f a := rfl

@[simp] theorem violation_run (v : Violation) (cs : List t.Child) :
    (violation v : Visit t α) cs = .error (.shape t v) := rfl

@[simp] theorem ite_run (p : Prop) [Decidable p] (v w : Visit t α) (cs : List t.Child) :
    (if p then v else w) cs = if p then v cs else w cs := by
  split <;> rfl

@[simp] theorem mapM_run {u : Tree} (f : Tree → Except Fault α) (cs : List u.Child)
    (cs' : List t.Child) :
    (cs.mapM fun c => (liftM (f c.tree) : Visit t α)) cs' =
      (cs.map Tree.Child.tree).mapM f >>= fun xs => .ok (xs, cs') := by
  induction cs with
  | nil => rfl
  | cons c cs ih =>
    rw [List.mapM_cons, bind_run, List.map_cons, List.mapM_cons]
    cases f c.tree with
    | error e => rfl
    | ok a =>
      simp only [lift_run, ok_bind, bind_run, ih]
      cases (cs.map Tree.Child.tree).mapM f <;> rfl

@[simp] theorem next_cons (c : t.Child) (cs : List t.Child) : next (c :: cs) = .ok (c, cs) := rfl

@[simp] theorem expect_cons {r : Rule} {c : t.Child} (h : c.rule = r) (cs : List t.Child) :
    expect r (c :: cs) = .ok (c, cs) := by
  simp [expect, h]

@[simp] theorem optional_nil (r : Rule) : optional (t := t) r [] = .ok (none, []) := rfl

theorem optional_cons (r : Rule) (c : t.Child) (cs : List t.Child) :
    optional r (c :: cs) = if c.rule = r then .ok (some c, cs) else .ok (none, c :: cs) := rfl

@[simp] theorem finish_nil : finish (t := t) [] = .ok ((), []) := rfl

/-- Children that all have a rule are taken together. -/
theorem many_append {r : Rule} {cs ds : List t.Child} (hc : ∀ c ∈ cs, c.rule = r)
    (hd : ∀ d ∈ ds, d.rule ≠ r) : many r (cs ++ ds) = .ok (cs, ds) := by
  have htake : ds.takeWhile (·.rule = r) = [] ∧ ds.dropWhile (·.rule = r) = ds := by
    cases ds with
    | nil => exact ⟨rfl, rfl⟩
    | cons d ds =>
      have : ¬ d.rule = r := hd d List.mem_cons_self
      exact ⟨by simp [this], by simp [this]⟩
  have hall : ∀ c ∈ cs, decide (c.rule = r) = true := fun c h => decide_eq_true (hc c h)
  rw [many, List.takeWhile_append_of_pos hall, List.dropWhile_append_of_pos hall, htake.1, htake.2,
    List.append_nil]

theorem many_all {r : Rule} {cs : List t.Child} (hc : ∀ c ∈ cs, c.rule = r) :
    many r cs = .ok (cs, []) := by
  have h := @many_append t r cs [] hc (by simp)
  rwa [List.append_nil] at h

/-- A child that may be missing, when the trees of the children are known. -/
theorem optional_of_map {r : Rule} {i : Option Tree} {l : Tree} {ts : List Tree}
    {cs : List t.Child} (h : cs.map Tree.Child.tree = i.toList ++ l :: ts)
    (hi : ∀ x ∈ i, x.rule? = some r) (hl : l.rule? ≠ some r) :
    ∃ c ds, optional r cs = .ok (c, ds) ∧ c.map Tree.Child.tree = i ∧
      ds.map Tree.Child.tree = l :: ts := by
  cases i with
  | none =>
    obtain ⟨c, ds, rfl, rfl, -⟩ := Tree.cons_of_map_tree h
    have hc : c.rule ≠ r := by
      intro hr
      rw [c.rule?_eq, hr] at hl
      exact hl rfl
    exact ⟨none, c :: ds, by rw [optional_cons, if_neg hc], rfl, h⟩
  | some x =>
    obtain ⟨c, ds, rfl, rfl, hds⟩ := Tree.cons_of_map_tree h
    exact ⟨some c, ds, by rw [optional_cons, if_pos (c.rule_eq (hi _ rfl))], rfl, hds⟩

end Visit

end Mt22
