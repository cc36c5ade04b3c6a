import Mt22.Proofs.Tree.Alike
import Mt22.Proofs.Tree.Visit

/-!
# Visits that agree

Two visits of trees that look alike agree: they take the same steps, and give related results or
faults that are reported alike.  Only the place of a fault may differ.

* `Agree R x y`: the outcomes are related by `R`, or both are faults with the same report.
* `Visit.Agrees R v w`: so are the outcomes of two visits on children that look alike.

Each step of a visit agrees with itself, and `Agrees.bind` puts them together.
-/

namespace Mt22

open Mt22.Tree

/-- The faults are reported alike, but for their place. -/
structure Fault.Same (f g : Fault) : Prop where
  message : f.message = g.message
  issuer : f.issuer = g.issuer
  level : f.level = g.level

theorem Fault.same_shape {t u : Tree} (h : Alike t u) (v : Violation) :
    Fault.Same (.shape t v) (.shape u v) := by
  have hname : t.ruleName = u.ruleName := congrArg (fun r => (r.map Rule.name).getD "") h.rule
  constructor
  · show t.ruleName ++ ": " ++ v.message = u.ruleName ++ ": " ++ v.message
    rw [hname]
  · show "mt22.lower." ++ t.ruleName = "mt22.lower." ++ u.ruleName
    rw [hname]
  · show Level.critical = Level.critical
    rfl

/-- Related results, or faults that are reported alike. -/
inductive Agree {α β : Type} (R : α → β → Prop) : Except Fault α → Except Fault β → Prop
  | ok {a : α} {b : β} (h : R a b) : Agree R (.ok a) (.ok b)
  | error {f g : Fault} (h : f.Same g) : Agree R (.error f) (.error g)

namespace Agree

variable {α β γ δ : Type} {R : α → β → Prop} {S : γ → δ → Prop} {x : Except Fault α}
  {y : Except Fault β}

theorem bind {f : α → Except Fault γ} {g : β → Except Fault δ} (h : Agree R x y)
    (hf : ∀ a b, R a b → Agree S (f a) (g b)) : Agree S (x >>= f) (y >>= g) := by
  cases h with
  | ok h => exact hf _ _ h
  | error h => exact .error h

theorem map {f : α → γ} {g : β → δ} (h : Agree R x y) (hf : ∀ a b, R a b → S (f a) (g b)) :
    Agree S (x.map f) (y.map g) := by
  cases h with
  | ok h => exact .ok (hf _ _ h)
  | error h => exact .error h

theorem mono {R' : α → β → Prop} (h : Agree R x y) (hR : ∀ a b, R a b → R' a b) :
    Agree R' x y := by
  cases h with
  | ok h => exact .ok (hR _ _ h)
  | error h => exact .error h

theorem mapM {f : α → Except Fault γ} {g : β → Except Fault δ} {as : List α} {bs : List β}
    (h : List.Forall₂ R as bs) (hf : ∀ a b, R a b → Agree S (f a) (g b)) :
    Agree (List.Forall₂ S) (as.mapM f) (bs.mapM g) := by
  induction h with
  | nil => exact .ok .nil
  | cons hab _ ih =>
    rw [List.mapM_cons, List.mapM_cons]
    refine (hf _ _ hab).bind ?_
    intro c d hcd
    refine ih.bind ?_
    intro cs ds hcds
    exact .ok (.cons hcd hcds)

theorem symm {x y : Except Fault α} (h : Agree Eq x y) : Agree Eq y x := by
  cases h with
  | ok h => exact .ok h.symm
  | error h => exact .error ⟨h.message.symm, h.issuer.symm, h.level.symm⟩

theorem trans {x y z : Except Fault α} (hx : Agree Eq x y) (hy : Agree Eq y z) : Agree Eq x z := by
  cases hx with
  | ok hx =>
    cases hy with
    | ok hy => exact .ok (hx.trans hy)
  | error hx =>
    cases hy with
    | error hy =>
      exact .error ⟨hx.message.trans hy.message, hx.issuer.trans hy.issuer, hx.level.trans hy.level⟩

/-- What gives a result gives the same one on what looks alike. -/
theorem eq_ok {x y : Except Fault α} {a : α} (h : Agree Eq x y) (hy : y = .ok a) : x = .ok a := by
  cases h with
  | ok h => rw [h, hy]
  | error => cases hy

end Agree

/-- Children that look alike. -/
def Tree.Child.Like {t u : Tree} (c : t.Child) (d : u.Child) : Prop := Alike c.tree d.tree

theorem Tree.Child.Like.rule {t u : Tree} {c : t.Child} {d : u.Child} (h : c.Like d) :
    c.rule = d.rule := by
  have hrule : c.tree.rule? = d.tree.rule? := Alike.rule h
  rw [c.rule?_eq, d.rule?_eq] at hrule
  exact Option.some.inj hrule

/-- The text of a child whose rule is read by its text. -/
theorem Tree.Child.Like.string {t u : Tree} {c : t.Child} {d : u.Child} (h : c.Like d)
    (hr : c.rule.isTextual = true) : c.tree.string = d.tree.string := by
  rw [Tree.string, Tree.string, Alike.text h (by rw [c.rule?_eq]; exact hr)]

theorem Tree.Alike.childList {t u : Tree} (h : Alike t u) :
    List.Forall₂ Child.Like t.childList u.childList := by
  have hc := h.children
  rw [← childList_map, ← childList_map] at hc
  rw [List.forall₂_map_left_iff, List.forall₂_map_right_iff] at hc
  exact hc

namespace Visit

variable {t u : Tree} {α β γ δ : Type} {R : α → β → Prop} {S : γ → δ → Prop}

/-- On children that look alike, the visits give related results and leave children that look
alike, or give faults that are reported alike. -/
def Agrees (R : α → β → Prop) (v : Visit t α) (w : Visit u β) : Prop :=
  ∀ cs ds, List.Forall₂ Child.Like cs ds →
    Agree (fun p q => R p.1 q.1 ∧ List.Forall₂ Child.Like p.2 q.2) (v cs) (w ds)

theorem Agrees.bind {v : Visit t α} {w : Visit u β} {f : α → Visit t γ} {g : β → Visit u δ}
    (h : Agrees R v w) (hf : ∀ a b, R a b → Agrees S (f a) (g b)) :
    Agrees S (v >>= f) (w >>= g) := by
  intro cs ds hcs
  rw [bind_run, bind_run]
  refine (h cs ds hcs).bind ?_
  intro p q hpq
  exact hf p.1 q.1 hpq.1 p.2 q.2 hpq.2

theorem Agrees.mono {R' : α → β → Prop} {v : Visit t α} {w : Visit u β} (h : Agrees R v w)
    (hR : ∀ a b, R a b → R' a b) : Agrees R' v w := by
  intro cs ds hcs
  exact (h cs ds hcs).mono fun p q hpq => ⟨hR _ _ hpq.1, hpq.2⟩

theorem agrees_pure {a : α} {b : β} (h : R a b) : Agrees (t := t) (u := u) R (pure a) (pure b) :=
  fun _ _ hcs => .ok ⟨h, hcs⟩

theorem agrees_lift {x : Except Fault α} {y : Except Fault β} (h : Agree R x y) :
    Agrees (t := t) (u := u) R (liftM x) (liftM y) := by
  intro cs ds hcs
  rw [lift_run, lift_run]
  refine h.bind ?_
  intro a b hab
  exact .ok ⟨hab, hcs⟩

theorem agrees_mapM {f : α → Visit t γ} {g : β → Visit u δ} {as : List α} {bs : List β}
    (h : List.Forall₂ R as bs) (hf : ∀ a b, R a b → Agrees S (f a) (g b)) :
    Agrees (List.Forall₂ S) (as.mapM f) (bs.mapM g) := by
  induction h with
  | nil => exact agrees_pure .nil
  | cons hab _ ih =>
    rw [List.mapM_cons, List.mapM_cons]
    refine (hf _ _ hab).bind ?_
    intro c d hcd
    refine ih.bind ?_
    intro cs ds hcds
    exact agrees_pure (.cons hcd hcds)

section

variable (htu : Alike t u)
include htu

theorem agrees_violation (v : Violation) :
    Agrees R (violation v : Visit t α) (violation v : Visit u β) :=
  fun _ _ _ => .error (Fault.same_shape htu v)

theorem agrees_violation_bind (v : Violation) {f : α → Visit t γ} {g : β → Visit u δ} :
    Agrees S (violation v >>= f) (violation v >>= g) :=
  fun _ _ _ => .error (Fault.same_shape htu v)

theorem agrees_next : Agrees (t := t) (u := u) Child.Like next next := by
  intro cs ds hcs
  cases hcs with
  | nil => exact .error (Fault.same_shape htu _)
  | cons h hs => exact .ok ⟨h, hs⟩

theorem agrees_expect (r : Rule) :
    Agrees (t := t) (u := u) (fun c d => c.Like d ∧ c.rule = r) (expect r) (expect r) := by
  intro cs ds hcs
  cases hcs with
  | nil => exact .error (Fault.same_shape htu _)
  | @cons c d cs ds h hs =>
    rw [expect, expect, ← h.rule]
    split
    · next hr => exact .ok ⟨⟨h, hr⟩, hs⟩
    · exact .error (Fault.same_shape htu _)

theorem agrees_finish : Agrees (t := t) (u := u) (fun _ _ => True) finish finish := by
  intro cs ds hcs
  cases hcs with
  | nil => exact .ok ⟨trivial, .nil⟩
  | @cons c d cs ds h hs =>
    rw [finish, finish, ← h.rule]
    exact .error (Fault.same_shape htu _)

end

theorem agrees_optional (r : Rule) :
    Agrees (t := t) (u := u) (Option.Rel fun c d => c.Like d ∧ c.rule = r) (optional r)
      (optional r) := by
  intro cs ds hcs
  cases hcs with
  | nil => exact .ok ⟨.none, .nil⟩
  | @cons c d cs ds h hs =>
    rw [optional_cons, optional_cons, ← h.rule]
    split
    · next hr => exact .ok ⟨.some ⟨h, hr⟩, hs⟩
    · exact .ok ⟨.none, .cons h hs⟩

theorem agrees_flag (r : Rule) : Agrees (t := t) (u := u) Eq (flag r) (flag r) := by
  refine (agrees_optional r).bind ?_
  intro a b h
  cases h with
  | none => exact agrees_pure rfl
  | some => exact agrees_pure rfl

theorem agrees_many (r : Rule) :
    Agrees (t := t) (u := u) (List.Forall₂ fun c d => c.Like d ∧ c.rule = r) (many r)
      (many r) := by
  intro cs ds hcs
  refine .ok ?_
  show List.Forall₂ _ (cs.takeWhile _) (ds.takeWhile _) ∧ List.Forall₂ _ (cs.dropWhile _) _
  induction hcs with
  | nil => exact ⟨.nil, .nil⟩
  | @cons c d cs ds h hs ih =>
    by_cases hr : c.rule = r
    · rw [List.takeWhile_cons_of_pos (by simpa using hr), List.dropWhile_cons_of_pos (by simpa using hr),
        List.takeWhile_cons_of_pos (by simpa [← h.rule] using hr),
        List.dropWhile_cons_of_pos (by simpa [← h.rule] using hr)]
      exact ⟨.cons ⟨h, hr⟩ ih.1, ih.2⟩
    · rw [List.takeWhile_cons_of_neg (by simpa using hr), List.dropWhile_cons_of_neg (by simpa using hr),
        List.takeWhile_cons_of_neg (by simpa [← h.rule] using hr),
        List.dropWhile_cons_of_neg (by simpa [← h.rule] using hr)]
      exact ⟨.nil, .cons h hs⟩

end Visit

namespace Tree

variable {t u : Tree} {α β : Type} {R : α → β → Prop} {v : Visit t α} {w : Visit u β}

theorem Alike.visit (htu : Alike t u) (h : Visit.Agrees R v w) : Agree R (t.visit v) (u.visit w) :=
  (h _ _ htu.childList).map fun _ _ hpq => hpq.1

theorem Alike.visitAll (htu : Alike t u) (h : Visit.Agrees R v w) :
    Agree R (t.visitAll v) (u.visitAll w) := by
  refine htu.visit (h.bind ?_)
  intro a b hab
  refine (Visit.agrees_finish htu).bind ?_
  intro _ _ _
  exact Visit.agrees_pure hab

end Tree

end Mt22
