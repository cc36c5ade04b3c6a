import Mathlib.Data.List.Forall2
import Mt22.Proofs.Tree.Visit

/-!
# Visits that succeed

The equations of visits, read backwards: what the success of a step says about the children that
were left before it and after it.  With these lemmas the success of a whole visit comes apart, by
simplification, into the children that it took and the results that were made of them.
-/

namespace Mt22

theorem Tree.rule_of_mem_takeWhile {r : Rule} {c : Tree} {ts : List Tree}
    (h : c ∈ ts.takeWhile (·.rule? = some r)) : c.rule? = some r := by
  have hc := List.all_eq_true.mp List.all_takeWhile c h
  exact of_decide_eq_true hc

namespace Visit

/-! ### Computations that may fault -/

section Faults

variable {α β : Type}

theorem bind_ok {x : Except Fault α} {f : α → Except Fault β} {b : β} :
    x >>= f = .ok b ↔ ∃ a, x = .ok a ∧ f a = .ok b := by
  cases x with
  | error e => simp
  | ok a => simp

theorem fmap_eq_ok {x : Except Fault α} {f : α → β} {b : β} :
    f <$> x = .ok b ↔ ∃ a, x = .ok a ∧ f a = b := by
  cases x with
  | error e => simp
  | ok a => simp

theorem exists_of_isOk {x : Except Fault α} (h : x.isOk = true) : ∃ a, x = .ok a := by
  cases x with
  | error e => cases h
  | ok a => exact ⟨a, rfl⟩

theorem mapM_ok {f : α → Except Fault β} {as : List α} {bs : List β} :
    as.mapM f = .ok bs ↔ List.Forall₂ (fun a b => f a = .ok b) as bs := by
  induction as generalizing bs with
  | nil => simp [eq_comm]
  | cons a as ih =>
    rw [List.mapM_cons, List.forall₂_cons_left_iff]
    simp only [bind_ok, ih, pure_eq_ok, Except.ok.injEq]
    constructor
    · rintro ⟨b, hb, bs, hbs, rfl⟩
      exact ⟨b, bs, hb, hbs, rfl⟩
    · rintro ⟨b, bs, hb, hbs, rfl⟩
      exact ⟨b, hb, bs, hbs, rfl⟩

theorem exists_of_mem_mapM {f : α → Except Fault β} {as : List α} {bs : List β} {b : β}
    (h : as.mapM f = .ok bs) (hb : b ∈ bs) : ∃ a ∈ as, f a = .ok b := by
  have hall := mapM_ok.mp h
  clear h
  induction hall with
  | nil => cases hb
  | @cons x y xs ys hxy _ ih =>
    rcases List.mem_cons.mp hb with rfl | hb
    · exact ⟨x, List.mem_cons_self, hxy⟩
    · obtain ⟨a, ha, hab⟩ := ih hb
      exact ⟨a, List.mem_cons_of_mem x ha, hab⟩

theorem exists_of_mapM {f : α → Except Fault β} {as : List α} {bs : List β} {a : α}
    (h : as.mapM f = .ok bs) (ha : a ∈ as) : ∃ b, f a = .ok b := by
  have hall := mapM_ok.mp h
  clear h
  induction hall with
  | nil => cases ha
  | @cons x y xs ys hxy _ ih =>
    rcases List.mem_cons.mp ha with rfl | ha
    · exact ⟨y, hxy⟩
    · exact ih ha

/-- A computation on a list fails at the first item at which it does. -/
theorem exists_of_mapM_error {g : α → Except Fault β} {as : List α} {f : Fault}
    (h : as.mapM g = .error f) : ∃ (i : Nat) (a : α), as[i]? = some a ∧ g a = .error f ∧
      ∀ j < i, ∀ b, as[j]? = some b → ∃ y, g b = .ok y := by
  induction as with
  | nil => cases h
  | cons a as ih =>
    rw [List.mapM_cons] at h
    cases ha : g a with
    | error e =>
      rw [ha] at h
      cases h
      exact ⟨0, a, rfl, ha, by simp⟩
    | ok y =>
      cases has : as.mapM g with
      | ok ys =>
        rw [ha, has] at h
        cases h
      | error e =>
        rw [ha, has] at h
        cases h
        obtain ⟨i, b, hi, hb, hbefore⟩ := ih has
        refine ⟨i + 1, b, hi, hb, ?_⟩
        intro j hj d hd
        cases j with
        | zero =>
          obtain rfl := Option.some.inj hd
          exact ⟨y, ha⟩
        | succ j => exact hbefore j (Nat.lt_of_succ_lt_succ hj) d hd

/-- The results that are made of a list, as a function of its items. -/
theorem exists_map_of_mapM [Nonempty β] {f : α → Except Fault β} {as : List α} {bs : List β}
    (h : as.mapM f = .ok bs) : ∃ g : α → β, bs = as.map g ∧ ∀ a ∈ as, f a = .ok (g a) := by
  have hg : ∃ g : α → β, ∀ a b, f a = .ok b → g a = b := by
    refine ⟨fun a => Classical.epsilon fun b => f a = .ok b, ?_⟩
    intro a b hab
    have hspec : f a = .ok (Classical.epsilon fun b => f a = .ok b) :=
      Classical.epsilon_spec (p := fun b => f a = .ok b) ⟨b, hab⟩
    exact Except.ok.inj (hspec.symm.trans hab)
  obtain ⟨g, hg⟩ := hg
  refine ⟨g, ?_, ?_⟩
  · have hall := mapM_ok.mp h
    clear h
    induction hall with
    | nil => rfl
    | cons hab _ ih => rw [List.map_cons, hg _ _ hab, ih]
  · intro a ha
    obtain ⟨b, hab⟩ := exists_of_mapM h ha
    rw [hab, hg a b hab]

end Faults

/-! ### Steps of a visit -/

variable {t : Tree} {α β : Type} {cs ds : List t.Child}

theorem run_bind_ok {v : Visit t α} {f : α → Visit t β} {p : β × List t.Child} :
    (v >>= f) cs = .ok p ↔ ∃ a es, v cs = .ok (a, es) ∧ f a es = .ok p := by
  rw [bind_run, bind_ok, Prod.exists]

theorem run_pure_ok {a b : α} : (pure a : Visit t α) cs = .ok (b, ds) ↔ b = a ∧ ds = cs := by
  rw [pure_run, Except.ok.injEq, Prod.mk.injEq, eq_comm, @eq_comm _ cs]

theorem lift_ok {x : Except Fault α} {a : α} :
    (liftM x : Visit t α) cs = .ok (a, ds) ↔ x = .ok a ∧ ds = cs := by
  rw [lift_run]
  cases x with
  | error e => simp
  | ok b => simp [@eq_comm _ cs]

theorem mapM_run_ok {u : Tree} {f : Tree → Except Fault α} {es : List u.Child} {as : List α} :
    (es.mapM fun c => (liftM (f c.tree) : Visit t α)) cs = .ok (as, ds) ↔
      (es.map Tree.Child.tree).mapM f = .ok as ∧ ds = cs := by
  rw [mapM_run]
  cases (es.map Tree.Child.tree).mapM f with
  | error e => simp
  | ok b => simp [@eq_comm _ cs]

theorem next_ok {c : t.Child} : next cs = .ok (c, ds) ↔ cs = c :: ds := by
  cases cs with
  | nil => simp [next]
  | cons => simp [next]

/-- The visit that goes on from the next child has a name, so that it can be split by the rule of
that child. -/
theorem next_bind_ok {f : t.Child → Visit t β} {p : β × List t.Child} (h : (next >>= f) cs = .ok p) :
    ∃ c ds v, cs = c :: ds ∧ f c = v ∧ v ds = .ok p := by
  obtain ⟨c, ds, hc, h⟩ := run_bind_ok.mp h
  exact ⟨c, ds, f c, next_ok.mp hc, rfl, h⟩

theorem expect_ok {r : Rule} {c : t.Child} :
    expect r cs = .ok (c, ds) ↔ cs = c :: ds ∧ c.rule = r := by
  cases cs with
  | nil => simp [expect]
  | cons d cs =>
    rw [expect]
    split
    · next h =>
      constructor
      · intro heq
        cases heq
        exact ⟨rfl, h⟩
      · rintro ⟨heq, -⟩
        cases heq
        rfl
    · next h =>
      constructor
      · intro heq
        cases heq
      · rintro ⟨heq, hc⟩
        cases heq
        exact absurd hc h

theorem optional_ok {r : Rule} {o : Option t.Child} :
    optional r cs = .ok (o, ds) →
      (∃ c, o = some c ∧ cs = c :: ds ∧ c.rule = r) ∨ o = none ∧ cs = ds := by
  intro h
  cases cs with
  | nil =>
    cases h
    exact .inr ⟨rfl, rfl⟩
  | cons d cs =>
    rw [optional_cons] at h
    split at h
    · next hr =>
      cases h
      exact .inl ⟨d, rfl, rfl, hr⟩
    · cases h
      exact .inr ⟨rfl, rfl⟩

theorem flag_ok {r : Rule} {b : Bool} (h : flag r cs = .ok (b, ds)) :
    (∃ c, b = true ∧ cs = c :: ds ∧ c.rule = r) ∨ b = false ∧ cs = ds := by
  rw [flag] at h
  simp only [run_bind_ok, run_pure_ok] at h
  obtain ⟨o, _, ho, rfl, rfl⟩ := h
  rcases optional_ok ho with ⟨c, rfl, hcs, hc⟩ | ⟨rfl, hcs⟩
  · exact .inl ⟨c, rfl, hcs, hc⟩
  · exact .inr ⟨rfl, hcs⟩

theorem many_ok {r : Rule} {es : List t.Child} (h : many r cs = .ok (es, ds)) :
    cs = es ++ ds ∧ ∀ c ∈ es, c.rule = r := by
  cases h
  refine ⟨List.takeWhile_append_dropWhile.symm, ?_⟩
  intro c hc
  exact of_decide_eq_true (List.all_eq_true.mp List.all_takeWhile c hc)

theorem map_takeWhile_rule (r : Rule) (cs : List t.Child) :
    (cs.takeWhile (·.rule = r)).map Tree.Child.tree =
      (cs.map Tree.Child.tree).takeWhile (·.rule? = some r) := by
  rw [List.takeWhile_map]
  congr 2
  funext c
  simp [c.rule?_eq]

theorem finish_ok {u : Unit} : finish cs = .ok (u, ds) ↔ cs = [] ∧ ds = [] := by
  cases cs with
  | nil => simp [finish, eq_comm]
  | cons => simp [finish]

theorem visit_ok {v : Visit t α} {a : α} :
    t.visit v = .ok a ↔ ∃ cs, v t.childList = .ok (a, cs) := by
  rw [Tree.visit]
  cases v t.childList with
  | error e => simp
  | ok p => simp [Prod.ext_iff]

theorem visitAll_ok {v : Visit t α} {a : α} :
    t.visitAll v = .ok a ↔ v t.childList = .ok (a, []) := by
  rw [Tree.visitAll, visit_ok]
  simp only [run_bind_ok, finish_ok, run_pure_ok]
  constructor
  · rintro ⟨cs, b, ds, hv, u, es, ⟨rfl, rfl⟩, rfl, rfl⟩
    exact hv
  · intro hv
    exact ⟨[], a, [], hv, (), [], ⟨rfl, rfl⟩, rfl, rfl⟩

/-- All children have a rule, and something is made of each. -/
theorem visitAll_many_ok {r : Rule} {f : Tree → Except Fault α} {as : List α}
    (h : t.visitAll (do
      let cs ← many r
      cs.mapM fun c => (liftM (f c.tree) : Visit t α)) = .ok as) :
    (∀ c ∈ t.children, c.rule? = some r) ∧ t.children.mapM f = .ok as := by
  rw [visitAll_ok] at h
  simp only [run_bind_ok, mapM_run_ok] at h
  obtain ⟨cs, _, hmany, has, rfl⟩ := h
  obtain ⟨hcs, hrule⟩ := many_ok hmany
  rw [List.append_nil] at hcs
  rw [← Tree.childList_map, hcs]
  refine ⟨?_, has⟩
  intro c hc
  obtain ⟨d, hd, rfl⟩ := List.mem_map.mp hc
  rw [d.rule?_eq, hrule d hd]

/-- A visit that takes the children with a rule and passes over those from the first that has
another. -/
theorem visit_many_ok {r : Rule} (h : t.visit (many r) = .ok cs) :
    cs.map Tree.Child.tree = t.children.takeWhile (·.rule? = some r) := by
  rw [visit_ok] at h
  obtain ⟨es, h⟩ := h
  cases h
  rw [map_takeWhile_rule, Tree.childList_map]

end Visit

end Mt22
